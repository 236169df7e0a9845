import Defuse.Proofs.PathDispatch
import Defuse.Spec.UsfsWrap

/-! Where a path ends up in the backend directory. The path of the system call should read
as the backend directory followed by what the application's path names below the mount. -/

namespace Defuse

open CSem

/-- The call goes to the real file system, or every operation of the backend names the
file below its directory that the path names below the mount. -/
def Confined (mounts : List MountPointData) (cwd backend p : List UInt8) : Prop :=
  ∃ r, dispatch mounts cwd p = .ok r ∧
    ∀ i stripped, r = some (i, stripped) →
      ∃ mp below, mounts[i]? = some mp ∧ normalForm cwd p = mp.components ++ below ∧
        ∀ op : PathOp,
          normalForm cwd (op.call backend stripped).path = normalForm cwd backend ++ below

/-- The resolved text of the path is longer than `/` and starts with the mount's path. -/
def StartsText (segs : List Seg) (mp : MountPointData) : Prop :=
  match names [] segs.dropLast with
  | none => mp.mountPath = [slash]
  | some st =>
    ¬ (st = [] ∧ segs.getLast? = some []) ∧
      mp.mountPath <+: pathText (visited st (segs.getLast?.getD []))

def Chosen (mounts : List MountPointData) (segs : List Seg) (mp : MountPointData) : Prop :=
  ∃ i : ℕ, mounts[i]? = some mp ∧ StartsText segs mp ∧
    ∀ (j : ℕ) (m : MountPointData), j < i → mounts[j]? = some m → ¬ StartsText segs m

def backendText (backend : List UInt8) (segs : List Seg) (mp : MountPointData) : List UInt8 :=
  backend ++ slash :: stripPath mp.mountPath (render (resolved segs))

def namesText (backend : List UInt8) (segs : List Seg) (mp : MountPointData) : List UInt8 :=
  backend ++ slash :: (render (lexical segs)).drop mp.mountPath.length

/-- `snprintf` cuts behind the names, and what it leaves there reads as nothing. -/
def CutBehindNames (cwd backend : List UInt8) (segs : List Seg) (mp : MountPointData) : Prop :=
  (namesText backend segs mp).length < PATH_MAX ∧
    ∀ g ∈ segments (((backendText backend segs mp).take (PATH_MAX - 1)).drop
      (namesText backend segs mp).length),
      g = [] ∨ g = dot ∨ g = dotdot ∧ normalForm cwd backend = [] ∧ lexical segs = mp.components

/-- The mount covers the place the path points to. Behind a mount at the root a path must not
climb above it, unless the backend is the root too. A text that is too long must be cut behind
the names. -/
def StaysBelow (cwd backend : List UInt8) (segs : List Seg) (mp : MountPointData) : Prop :=
  mp.Covers (lexical segs) ∧
    if (backendText backend segs mp).length < PATH_MAX then
      mp.mountPath = [slash] → names [] segs ≠ none ∨ normalForm cwd backend = []
    else CutBehindNames cwd backend segs mp

variable {mounts : List MountPointData} {cwd backend p : List UInt8} {segs : List Seg}

theorem call_path (op : PathOp) (backend path : List UInt8) :
    (op.call backend path).path = backendFile backend path := by
  cases op with
  | getattr flags =>
    simp only [PathOp.call, usfsGetattr]
    split_ifs <;> rfl
  | «open» flags mode => rfl
  | truncate length => rfl
  | unlink => rfl
  | access mode => rfl
  | readlink bufsize => rfl

theorem resolved_slashless (hs : Slashless segs) : Slashless (resolved segs) :=
  Slashless.climb (by simp [Slashless]) ((hs.dropInner dot).dropInner [])

/-- The test of the search, on the segments of the path. -/
theorem startsText_iff {mp : MountPointData} (hmp : mp.Normalised) (hne : segs ≠ [])
    (hs : Slashless segs) :
    (mp.mountPath <+: render (resolved segs) ∧ (render (resolved segs)).length > 1) ↔
      StartsText segs mp := by
  have hT := resolved_slashless hs
  obtain ⟨c, hc, hpath⟩ := hmp
  obtain ⟨V, last, rfl⟩ : ∃ V last, segs = V ++ [last] := ⟨_, _, pathSegs_concat segs hne⟩
  unfold StartsText
  rw [List.dropLast_concat, List.getLast?_concat, Option.getD_some]
  cases hnames : names [] V with
  | none =>
    obtain ⟨tail, -, heq⟩ := resolved_of_escape last hnames
    rw [heq] at hT ⊢
    rw [hpath, escaped_prefix_iff hc hT, ← pathText_eq_root hc]
    refine and_iff_left ?_
    simp [dotdot]
  | some st =>
    rw [resolved_of_names hnames] at hT ⊢
    rw [hpath, visited_prefix_iff hc hT, and_comm]
    refine and_congr_left fun _ => ?_
    constructor
    · rintro hlen ⟨rfl, hlast⟩
      cases hlast
      simp at hlen
    · intro h
      exact pathText_visited fun hroot => h ⟨hroot.1, by rw [hroot.2]⟩

theorem lexical_resolved (hs : Slashless segs) (hne : segs ≠ []) :
    lexical (resolved segs) = lexical segs := by
  obtain ⟨V, last, rfl⟩ : ∃ V last, segs = V ++ [last] := ⟨_, _, pathSegs_concat segs hne⟩
  have hV : Slashless ((V.filter (· ≠ dot)).filter (· ≠ [])) := fun g hg =>
    hs g (by simp [List.mem_of_mem_filter (List.mem_of_mem_filter hg)])
  unfold lexical resolved
  rw [dropInner_concat, dropInner_concat, foldl_enter_climb (by simp) hV, ← dropInner_concat,
    ← dropInner_concat, foldl_enter_dropInner (Or.inl rfl), foldl_enter_dropInner (Or.inr rfl)]
  intro g hg
  simp only [List.mem_filter, decide_eq_true_eq] at hg
  exact ⟨hg.2, hg.1.2⟩

theorem names_resolved (hs : Slashless segs) (hne : segs ≠ []) :
    names [] (resolved segs) = none ↔ names [] segs = none := by
  obtain ⟨V, last, rfl⟩ : ∃ V last, segs = V ++ [last] := ⟨_, _, pathSegs_concat segs hne⟩
  rw [names_append]
  cases hnames : names [] V with
  | none =>
    obtain ⟨tail, -, heq⟩ := resolved_of_escape last hnames
    rw [heq]
    simp [names_cons, dotdot, dot]
  | some st =>
    have hst : ∀ g ∈ st, IsName g := names_isName (by simp) (fun x hx => hs x (by simp [hx])) hnames
    rw [resolved_of_names hnames, names_append,
      names_of_isName [] _ fun g hg => hst g (List.mem_reverse.mp hg)]
    simp

theorem normalForm_join (hb : backend ≠ []) (t : List UInt8) :
    normalForm cwd (backend ++ slash :: t) =
      ((segments t).foldl enter (normalForm cwd backend).reverse).reverse := by
  have hj : joined cwd (backend ++ slash :: t) = joined cwd backend ++ slash :: t := by
    obtain ⟨b, bs, rfl⟩ := List.exists_cons_of_ne_nil hb
    unfold joined
    by_cases hslash : b = slash
    · simp [hslash]
    · simp [hslash]
  have hne : joined cwd backend ≠ [] := by
    unfold joined
    split_ifs
    · simp
    · exact hb
  unfold normalForm pathSegs lexical
  rw [hj, List.tail_append_of_ne_nil hne, segments_append, List.foldl_append, List.reverse_reverse]

/-- A chosen mount that covers the place stands at the front of the resolved segments, and
below it the path does not climb. -/
theorem resolved_split {mp : MountPointData} {c : List Seg} (hc : ∀ g ∈ c, IsName g)
    (hpath : mp.mountPath = pathText c) (hne : segs ≠ []) (hs : Slashless segs)
    (hstart : StartsText segs mp) (hcov : c <+: lexical segs) :
    ∃ T, resolved segs = c ++ T ∧ (c ≠ [] → names [] T ≠ none) := by
  obtain ⟨V, last, rfl⟩ : ∃ V last, segs = V ++ [last] := ⟨_, _, pathSegs_concat segs hne⟩
  have hlast : slash ∉ last := hs last (by simp)
  unfold StartsText at hstart
  rw [List.dropLast_concat] at hstart
  cases hnames : names [] V with
  | none =>
    rw [hnames] at hstart
    have hroot : c = [] := (pathText_eq_root hc).mp (by rw [← hpath]; exact hstart)
    exact ⟨resolved (V ++ [last]), by rw [hroot]; rfl, fun h => absurd hroot h⟩
  | some st =>
    have hst : ∀ g ∈ st, IsName g := names_isName (by simp) (fun x hx => hs x (by simp [hx])) hnames
    rw [lexical_concat, foldl_enter_of_names hnames] at hcov
    have hvis : visited st last <+: st.reverse ++ [last] := by
      unfold visited
      split_ifs <;> simp
    obtain ⟨T, hT⟩ := (hcov.trans (enter_prefix_visited hlast)).trans hvis
    refine ⟨T, by rw [resolved_of_names hnames, hT], fun hcne hnone => ?_⟩
    rcases List.eq_nil_or_concat T with rfl | ⟨X, l, rfl⟩
    · cases hnone
    rw [List.concat_eq_append] at hT hnone
    rw [← List.append_assoc] at hT
    obtain ⟨hX, hl⟩ := List.append_inj' hT rfl
    cases hl
    have hXname : ∀ g ∈ X, IsName g := by
      intro g hg
      refine hst g (List.mem_reverse.mp ?_)
      rw [← hX]
      exact List.mem_append_right _ hg
    -- only a final `..` right below the mount would climb, and then the mount covers too much
    rw [names_append, names_of_isName [] X hXname, Option.bind_some, List.append_nil, names_cons]
      at hnone
    split_ifs at hnone with hskip hd
    · cases hnone
    · rcases List.eq_nil_or_concat X with rfl | ⟨Y, y, rfl⟩
      · have hle := hcov.length_le
        rw [List.append_nil] at hX
        rw [hd, enter_dotdot, hX, List.length_reverse, List.length_reverse, List.length_tail] at hle
        have := List.length_pos_iff_ne_nil.mpr hcne
        rw [hX, List.length_reverse] at this
        omega
      · rw [List.concat_eq_append, List.reverse_append] at hnone
        cases hnone
    · cases hnone

/-- What the backend is handed reads like the segments below the mount. -/
theorem stripPath_reads {c T : List Seg} (hT : Slashless (c ++ T))
    (hlen : (render (c ++ T)).length > 1) (B : List Seg) :
    (segments (stripPath (pathText c) (render (c ++ T)))).foldl enter B = T.foldl enter B := by
  have hskip : ∀ gs, ([] :: gs).foldl enter B = gs.foldl enter B := fun gs => by
    rw [List.foldl_cons, enter_skip (Or.inl rfl)]
  have hTs : Slashless T := fun g hg => hT g (List.mem_append_right _ hg)
  unfold stripPath
  cases T with
  | nil =>
    cases c with
    | nil => simp at hlen
    | cons g gs =>
      have hdrop : (render (g :: gs ++ [])).drop (pathText (g :: gs)).length = [] := by
        rw [List.append_nil]
        exact List.drop_length
      rw [hdrop, if_pos rfl]
      exact hskip [[]]
  | cons g gs =>
    cases c with
    | nil =>
      have hdrop : (render ([] ++ g :: gs)).drop (pathText []).length = g ++ render gs := rfl
      have hne : g ++ render gs ≠ [] := by
        intro h
        rw [List.nil_append, render_cons, h] at hlen
        simp at hlen
      rw [hdrop, if_neg hne, segments_render hTs]
    | cons a as =>
      have hdrop : (render (a :: as ++ g :: gs)).drop (pathText (a :: as)).length =
          render (g :: gs) := by
        have htext : pathText (a :: as) = render (a :: as) := rfl
        rw [htext, render_append, List.drop_left]
      rw [hdrop, if_neg (by simp), render_cons]
      change ([] :: segments (g ++ render gs)).foldl enter B = _
      rw [segments_render hTs, hskip]

/-- The joined text before it is cut. -/
theorem backendText_reads {mp : MountPointData} (hmp : mp.Normalised) (hb : backend ≠ [])
    (hne : segs ≠ []) (hs : Slashless segs) (hstart : StartsText segs mp)
    (hcov : mp.Covers (lexical segs)) :
    normalForm cwd (backendText backend segs mp) =
        normalForm cwd backend ++ (lexical segs).drop mp.components.length ↔
      (mp.mountPath = [slash] → names [] segs ≠ none ∨ normalForm cwd backend = []) := by
  obtain ⟨-, hlen⟩ := (startsText_iff hmp hne hs).mpr hstart
  obtain ⟨c, hc, hpath⟩ := hmp
  unfold MountPointData.Covers at hcov
  rw [components_eq hc hpath] at hcov ⊢
  obtain ⟨T, hT, hclimb⟩ := resolved_split hc hpath hne hs hstart hcov
  have hslash := resolved_slashless hs
  have hlex := lexical_resolved hs hne
  have hnames := names_resolved hs hne
  unfold backendText
  rw [normalForm_join hb, hpath, hT, stripPath_reads (by rw [← hT]; exact hslash)
    (by rw [← hT]; exact hlen), pathText_eq_root hc]
  obtain ⟨k, hk, hk0⟩ := foldl_enter_append [] T
  simp only [List.nil_append] at hk
  have hN : lexical segs = (T.foldl enter [] ++ c.reverse.drop k).reverse := by
    rw [← hlex, hT, lexical, List.foldl_append, foldl_enter_names [] c hc, List.append_nil, hk]
  rw [hk, hN]
  by_cases hroot : c = []
  · subst hroot
    rw [hT, List.nil_append] at hnames
    have hdrop : (normalForm cwd backend).reverse.drop k = (normalForm cwd backend).reverse ↔
        k = 0 ∨ normalForm cwd backend = [] := by
      constructor
      · intro h
        have hlen' := congrArg List.length h
        rw [List.length_drop, List.length_reverse] at hlen'
        rw [← List.length_eq_zero_iff]
        omega
      · rintro (rfl | h)
        · rfl
        · simp [h]
    rw [hk0, ne_eq, hnames] at hdrop
    simp only [List.reverse_append, List.reverse_nil, List.drop_nil, List.nil_append,
      List.length_nil, List.drop_zero, List.append_cancel_right_eq, forall_const]
    rw [← hdrop, ← List.reverse_eq_iff]
  · have hk' : k = 0 := hk0.mpr (hclimb hroot)
    subst hk'
    simp [hroot]

def Trailing (y : List UInt8) : Prop :=
  y = [] ∨ y = dot ∨ ∃ n, IsName n ∧ y = n ++ slash :: dotdot

/-- The resolved text is the names and what stands behind them. -/
theorem resolved_text (hne : segs ≠ []) (hs : Slashless segs) (hnames : names [] segs ≠ none) :
    (∀ g ∈ lexical segs, IsName g) ∧ ∃ x, render (resolved segs) = render (lexical segs) ++ x ∧
      (x = [] ∨ ∃ y, Trailing y ∧ x = slash :: y) := by
  obtain ⟨V, last, rfl⟩ : ∃ V last, segs = V ++ [last] := ⟨_, _, pathSegs_concat segs hne⟩
  rw [names_append] at hnames
  cases hV : names [] V with
  | none =>
    rw [hV] at hnames
    exact absurd rfl hnames
  | some st =>
    have hst : ∀ g ∈ st, IsName g := names_isName (by simp) (fun x hx => hs x (by simp [hx])) hV
    rw [hV, Option.bind_some, names_cons] at hnames
    rw [resolved_of_names hV, lexical_concat, foldl_enter_of_names hV, render_append]
    by_cases hskip : last = [] ∨ last = dot
    · rw [enter_skip hskip]
      refine ⟨fun g hg => hst g (List.mem_reverse.mp hg), render [last], rfl, Or.inr ⟨last, ?_, ?_⟩⟩
      · exact hskip.imp_right Or.inl
      · simp
    by_cases hd : last = dotdot
    · subst hd
      rw [if_neg hskip, if_pos rfl] at hnames
      cases st with
      | nil => exact absurd rfl hnames
      | cons n st =>
        rw [enter_dotdot, List.tail_cons]
        refine ⟨fun g hg => hst g (List.mem_cons_of_mem _ (List.mem_reverse.mp hg)),
          slash :: (n ++ slash :: dotdot), by simp, Or.inr ⟨_, Or.inr (Or.inr ⟨n, ?_, rfl⟩), rfl⟩⟩
        exact hst n (by simp)
    · have hname : IsName last := ⟨fun h => hskip (Or.inl h), fun h => hskip (Or.inr h), hd,
        hs last (by simp)⟩
      rw [enter_name hname]
      refine ⟨?_, [], by simp, Or.inl rfl⟩
      intro g hg
      rcases List.mem_cons.mp (List.mem_reverse.mp hg) with rfl | hg
      · exact hname
      · exact hst g hg

/-- So is the text that the backend is handed. -/
theorem stripPath_text {c d : List Seg} (hd : ∀ g ∈ c ++ d, IsName g) {x : List UInt8}
    (hx : x = [] ∨ ∃ y, Trailing y ∧ x = slash :: y)
    (hlen : (render (c ++ d) ++ x).length > 1) :
    ∃ z, stripPath (pathText c) (render (c ++ d) ++ x) =
        (render (c ++ d)).drop (pathText c).length ++ z ∧
      (z = [] ∨ ∃ y, Trailing y ∧ (z = slash :: y ∨ d = [] ∧ z = y)) := by
  have hx' : x = [] ∨ ∃ y, Trailing y ∧ (x = slash :: y ∨ d = [] ∧ x = y) :=
    hx.imp_right fun ⟨y, hy, hxy⟩ => ⟨y, hy, Or.inl hxy⟩
  unfold stripPath
  by_cases hroot : c = []
  · subst hroot
    cases d with
    | nil =>
      obtain ⟨y, hy, rfl⟩ := hx.resolve_left fun hnil => by simp [hnil] at hlen
      have hne : y ≠ [] := by
        rintro rfl
        simp at hlen
      change ∃ z, (if y = [] then _ else y) = [] ++ z ∧ _
      rw [if_neg hne]
      exact ⟨y, rfl, Or.inr ⟨y, hy, Or.inr ⟨rfl, rfl⟩⟩⟩
    | cons g gs =>
      have hg := (hd g (by simp)).1
      change ∃ z, (if g ++ render gs ++ x = [] then _ else g ++ render gs ++ x) = g ++ render gs ++ z ∧ _
      rw [if_neg (by simp [hg])]
      exact ⟨x, rfl, hx'⟩
  · have htext : pathText c = render c := if_neg hroot
    rw [htext, render_append, List.append_assoc, List.drop_left, List.drop_left]
    split_ifs with hnil
    · rw [List.append_eq_nil_iff, render_eq_nil_iff] at hnil
      exact ⟨[slash], by rw [hnil.1]; rfl, Or.inr ⟨[], Or.inl rfl, Or.inl rfl⟩⟩
    · exact ⟨x, rfl, hx'⟩

/-- A front of what stands behind the names, before its end. -/
theorem trailing_reads {y : List UInt8} (hy : Trailing y) {k : ℕ} (hk : k < y.length)
    (st : List Seg) :
    (segments (y.take k)).foldl enter st = st ↔ ∀ g ∈ segments (y.take k), Idle st g := by
  refine ⟨fun hread => ?_, foldl_enter_idle⟩
  have hone {g : Seg} (hg : slash ∉ g) (h : (segments g).foldl enter st = st) :
      ∀ x ∈ segments g, Idle st x := by
    rw [segments_of_slashless hg] at h ⊢
    simpa using enter_eq_self_iff.mp h
  rcases hy with rfl | rfl | ⟨n, hn, rfl⟩
  · exact absurd hk (Nat.not_lt_zero _)
  · exact hone (fun hmem => absurd (List.mem_of_mem_take hmem) (by decide)) hread
  · rcases Nat.lt_or_ge n.length k with hlt | hle
    · -- the name is there and not all of the `..` behind it
      obtain ⟨j, rfl⟩ : ∃ j, k = n.length + (j + 1) := ⟨k - n.length - 1, by omega⟩
      rw [List.length_append, List.length_cons] at hk
      rw [List.take_length_add_append, List.take_succ_cons, segments_append_slash hn.2.2.2,
        List.foldl_cons, enter_name hn] at hread
      have hidle : ∀ g ∈ segments (dotdot.take j), g = [] ∨ g = dot := by
        have hj : j = 0 ∨ j = 1 := by
          change n.length + (j + 1) < n.length + (2 + 1) at hk
          omega
        rcases hj with rfl | rfl <;> decide
      rw [foldl_enter_idle fun g hg => (hidle g hg).imp_right Or.inl] at hread
      simp at hread
    · rw [List.take_append_of_le_length hle] at hread ⊢
      exact hone (fun hmem => hn.2.2.2 (List.mem_of_mem_take hmem)) hread

theorem behind_reads {d : List Seg} {z : List UInt8}
    (hz : z = [] ∨ ∃ y, Trailing y ∧ (z = slash :: y ∨ d = [] ∧ z = y)) {k : ℕ}
    (hk : k < z.length) (st : List Seg) :
    (segments (z.take k)).foldl enter st = st ↔ ∀ g ∈ segments (z.take k), Idle st g := by
  rcases hz with rfl | ⟨y, hy, rfl | ⟨-, rfl⟩⟩
  · exact absurd hk (Nat.not_lt_zero _)
  · cases k with
    | zero => exact iff_of_true rfl fun g hg => Or.inl (List.mem_singleton.mp hg)
    | succ k =>
      have hseg : segments ((slash :: y).take (k + 1)) = [] :: segments (y.take k) := rfl
      rw [hseg, List.foldl_cons, enter_skip (Or.inl rfl), trailing_reads hy (Nat.lt_of_succ_lt_succ hk),
        List.forall_mem_cons]
      exact (and_iff_right (Or.inl rfl)).symm
  · exact trailing_reads hy hk st

theorem namesBelow_nil (c : List Seg) : (render (c ++ [])).drop (pathText c).length = [] := by
  rw [List.append_nil, List.drop_eq_nil_iff]
  unfold pathText
  split_ifs with hc
  · rw [hc]
    exact Nat.zero_le _
  · exact le_rfl

/-- The names below a mount, as the text has them. -/
theorem namesBelow_reads {c d : List Seg} (hd : ∀ g ∈ c ++ d, IsName g) (st : List Seg) :
    (segments ((render (c ++ d)).drop (pathText c).length)).foldl enter st = d.reverse ++ st ∧
    ∀ k < ((render (c ++ d)).drop (pathText c).length).length,
      (segments (((render (c ++ d)).drop (pathText c).length).take k)).foldl enter st ≠
        d.reverse ++ st := by
  have hd' : ∀ g ∈ d, IsName g := fun g hg => hd g (List.mem_append_right _ hg)
  have hslash : Slashless d := fun g hg => (hd' g hg).2.2.2
  cases d with
  | nil =>
    rw [namesBelow_nil c]
    exact ⟨rfl, fun k hk => absurd hk (Nat.not_lt_zero _)⟩
  | cons g gs =>
    have hread : (g :: gs).foldl enter st = (g :: gs).reverse ++ st := foldl_enter_names st _ hd'
    have hcut := fun k hk => foldl_segments_cut (k := k) hd' hk st
    have hrev : (g :: gs).reverse ++ st = gs.reverse ++ g :: st := by simp
    by_cases hc : c = []
    · subst hc
      change (segments (g ++ render gs)).foldl enter st = _ ∧ ∀ k < (g ++ render gs).length,
        (segments ((g ++ render gs).take k)).foldl enter st ≠ _
      rw [segments_render hslash, hrev]
      exact ⟨hread.trans hrev, hcut⟩
    · have htext : (render (c ++ g :: gs)).drop (pathText c).length = slash :: (g ++ render gs) := by
        rw [pathText, if_neg hc, render_append, List.drop_left, render_cons]
      rw [htext, hrev]
      constructor
      · change ([] :: segments (g ++ render gs)).foldl enter st = _
        rw [segments_render hslash, List.foldl_cons, enter_skip (Or.inl rfl)]
        exact hread.trans hrev
      · intro k hk
        cases k with
        | zero =>
          intro heq
          have hlen := congrArg List.length heq
          simp [segments, enter] at hlen
          omega
        | succ k =>
          change ([] :: segments ((g ++ render gs).take k)).foldl enter st ≠ _
          rw [List.foldl_cons, enter_skip (Or.inl rfl)]
          exact hcut k (Nat.lt_of_succ_lt_succ hk)

/-- A text that is cut names the same file when it is cut behind the names. -/
theorem cut_reads {mp : MountPointData} (hmp : mp.Normalised) (hb : backend ≠ [])
    (hshort : backend.length + 1 < PATH_MAX) (hne : segs ≠ []) (hs : Slashless segs)
    (hstart : StartsText segs mp) (hcov : mp.Covers (lexical segs)) (hnames : names [] segs ≠ none)
    (hlong : PATH_MAX ≤ (backendText backend segs mp).length) :
    normalForm cwd ((backendText backend segs mp).take (PATH_MAX - 1)) =
        normalForm cwd backend ++ (lexical segs).drop mp.components.length ↔
      CutBehindNames cwd backend segs mp := by
  obtain ⟨-, hlen⟩ := (startsText_iff hmp hne hs).mpr hstart
  obtain ⟨c, hc, hpath⟩ := hmp
  unfold CutBehindNames namesText
  unfold MountPointData.Covers at hcov
  unfold backendText at hlong ⊢
  rw [components_eq hc hpath] at hcov ⊢
  rw [hpath] at hlong ⊢
  obtain ⟨hall, x, htext, hx⟩ := resolved_text hne hs hnames
  obtain ⟨d, hd⟩ := hcov
  rw [← hd] at hall htext ⊢
  rw [htext] at hlen
  obtain ⟨z, hz, hbehind⟩ := stripPath_text hall hx hlen
  obtain ⟨v, hv⟩ : ∃ v, v = (render (c ++ d)).drop (pathText c).length := ⟨_, rfl⟩
  obtain ⟨hfull, hcut⟩ := namesBelow_reads hall (normalForm cwd backend).reverse
  obtain ⟨r, hr⟩ : ∃ r, PATH_MAX - 1 = backend.length + (r + 1) := ⟨PATH_MAX - 2 - backend.length, by omega⟩
  rw [htext, hz] at hlong ⊢
  rw [← hv] at hfull hcut hlong ⊢
  rw [List.length_append, List.length_cons, List.length_append] at hlong
  rw [List.length_append, List.length_cons, hr, List.take_length_add_append, List.take_succ_cons,
    normalForm_join hb, List.drop_left]
  have hrev : normalForm cwd backend ++ d = (d.reverse ++ (normalForm cwd backend).reverse).reverse := by
    simp
  rw [hrev, List.reverse_inj]
  rcases Nat.lt_or_ge r v.length with hlt | hge
  · rw [List.take_append_of_le_length hlt.le]
    exact iff_of_false (hcut r hlt) fun h => by omega
  · obtain ⟨k, rfl⟩ : ∃ k, r = v.length + k := ⟨r - v.length, by omega⟩
    have hk : k < z.length := by omega
    have hdrop : (backend ++ slash :: (v ++ z.take k)).drop (backend.length + (v.length + 1)) =
        z.take k := by
      rw [show backend ++ slash :: (v ++ z.take k) = (backend ++ slash :: v) ++ z.take k by simp,
        List.drop_left' (by simp)]
    -- the names are read first, and a slash follows them
    have hsplit : (segments (v ++ z.take k)).foldl enter (normalForm cwd backend).reverse =
        (segments (z.take k)).foldl enter (d.reverse ++ (normalForm cwd backend).reverse) := by
      rcases hbehind with rfl | ⟨y, -, rfl | ⟨rfl, -⟩⟩
      · exact absurd hk (Nat.not_lt_zero _)
      · cases k with
        | zero =>
          rw [List.take_zero, List.append_nil]
          exact hfull
        | succ k =>
          rw [List.take_succ_cons, segments_append, List.foldl_append, hfull]
          rfl
      · rw [hv, namesBelow_nil]
        rfl
    rw [List.take_length_add_append, hsplit, hdrop, behind_reads hbehind hk, and_iff_right (by omega)]
    refine forall₂_congr fun g _ => ?_
    unfold Idle
    rw [List.append_eq_nil_iff, List.reverse_eq_nil_iff, List.reverse_eq_nil_iff, and_comm (a := d = [])]
    simp

/-- The mount the search finds is the chosen one. -/
theorem find_chosen (hM : ∀ mp ∈ mounts, mp.Normalised) (hne : segs ≠ []) (hs : Slashless segs)
    (mp : MountPointData) :
    Chosen mounts segs mp ↔ ∃ i, mounts[i]? = some mp ∧
      findMountAndStripPath mounts (render (resolved segs)) =
        some (i, stripPath mp.mountPath (render (resolved segs))) := by
  have hstarts := fun m hm => startsText_iff (hM m hm) hne hs
  constructor
  · rintro ⟨i, hi, hstart, hfirst⟩
    refine ⟨i, hi, ?_⟩
    obtain ⟨hpre, hlen⟩ := (hstarts mp (List.mem_of_getElem? hi)).mpr hstart
    cases hfind : findMountAndStripPath mounts (render (resolved segs)) with
    | none =>
      exact absurd hlen ((findMountAndStripPath_none_iff _).mp hfind mp (List.mem_of_getElem? hi) hpre)
    | some r =>
      obtain ⟨k, stripped⟩ := r
      obtain ⟨m, hk, hpre', -, rfl, hfirst'⟩ := findMountAndStripPath_some hfind
      have hik : i = k := by
        rcases lt_trichotomy i k with hlt | heq | hgt
        · exact absurd hpre (hfirst' i mp hlt hi)
        · exact heq
        · exact absurd ((hstarts m (List.mem_of_getElem? hk)).mp ⟨hpre', hlen⟩) (hfirst k m hgt hk)
      subst hik
      rw [hi] at hk
      cases hk
      rfl
  · rintro ⟨i, hi, hfind⟩
    obtain ⟨m, hk, hpre, hlen, -, hfirst⟩ := findMountAndStripPath_some hfind
    rw [hi] at hk
    cases hk
    refine ⟨i, hi, (hstarts mp (List.mem_of_getElem? hi)).mp ⟨hpre, hlen⟩, ?_⟩
    intro j m hj hm hstart
    exact hfirst j m hj hm ((hstarts m (List.mem_of_getElem? hm)).mpr hstart).1

/-- The file a chosen mount's backend opens. -/
theorem staysBelow_iff {mp : MountPointData} (hmp : mp.Normalised) (hb : backend ≠ [])
    (hshort : backend.length + 1 < PATH_MAX) (hne : segs ≠ []) (hs : Slashless segs)
    (hstart : StartsText segs mp)
    (hclimb : PATH_MAX ≤ (backendText backend segs mp).length → names [] segs ≠ none) :
    (∃ below, lexical segs = mp.components ++ below ∧
      normalForm cwd (backendFile backend (stripPath mp.mountPath (render (resolved segs)))) =
        normalForm cwd backend ++ below) ↔ StaysBelow cwd backend segs mp := by
  have hfile : backendFile backend (stripPath mp.mountPath (render (resolved segs))) =
      (backendText backend segs mp).take (PATH_MAX - 1) := rfl
  have hbelow : (∃ below, lexical segs = mp.components ++ below ∧
      normalForm cwd ((backendText backend segs mp).take (PATH_MAX - 1)) =
        normalForm cwd backend ++ below) ↔
      mp.Covers (lexical segs) ∧
        normalForm cwd ((backendText backend segs mp).take (PATH_MAX - 1)) =
          normalForm cwd backend ++ (lexical segs).drop mp.components.length := by
    constructor
    · rintro ⟨below, hN, hread⟩
      refine ⟨⟨below, hN.symm⟩, ?_⟩
      rw [hN, List.drop_left]
      exact hread
    · rintro ⟨⟨below, hN⟩, hread⟩
      refine ⟨below, hN.symm, ?_⟩
      rw [← hN, List.drop_left] at hread
      exact hread
  rw [hfile, hbelow]
  unfold StaysBelow
  refine and_congr_right fun hcov => ?_
  split_ifs with hlen
  · rw [List.take_of_length_le (by omega)]
    exact backendText_reads hmp hb hne hs hstart hcov
  · exact cut_reads hmp hb hshort hne hs hstart hcov (hclimb (not_lt.mp hlen)) (not_lt.mp hlen)

/-- Which paths stay inside the backend directory and name the same file there. -/
theorem confined_iff (hM : ∀ mp ∈ mounts, mp.Normalised) (hcwd : cwd.head? = some slash)
    (htext : 0 ∉ cwd ∧ 0 ∉ p) (hb : backend ≠ []) (hshort : backend.length + 1 < PATH_MAX)
    (hclimb : ∀ mp, Chosen mounts (pathSegs cwd p) mp →
      PATH_MAX ≤ (backendText backend (pathSegs cwd p) mp).length →
        names [] (pathSegs cwd p) ≠ none) :
    Confined mounts cwd backend p ↔
      (p = [] ∧ mounts = []) ∨
        (p ≠ [] ∧ (joined cwd p).length < PATH_MAX ∧ InBounds (pathSegs cwd p) ∧
          ∀ mp, Chosen mounts (pathSegs cwd p) mp → StaysBelow cwd backend (pathSegs cwd p) mp) := by
  by_cases hp : p = []
  · subst hp
    unfold Confined
    rw [dispatch_empty]
    by_cases hm : mounts = []
    · simp [hm]
    · simp [hm]
  have hfault : ∀ e, resolvePath cwd p = .error e → ¬ Confined mounts cwd backend p := by
    rintro e he ⟨r, hr, -⟩
    rw [dispatch_fault he] at hr
    cases hr
  by_cases hfits : (joined cwd p).length < PATH_MAX
  · obtain ⟨hin, hout⟩ := resolvePath_eq ⟨hcwd, htext, hfits⟩ hp
    by_cases hbound : InBounds (pathSegs cwd p)
    · have hne : pathSegs cwd p ≠ [] := segments_ne_nil _
      have hs : Slashless (pathSegs cwd p) := segments_slashless _
      simp only [hp, hfits, hbound, false_and, false_or, ne_eq, not_false_eq_true, true_and]
      unfold Confined
      rw [dispatch_resolved (hin hbound)]
      constructor
      · rintro ⟨r, hr, hconf⟩ mp hchosen
        cases hr
        have hclimb' := hclimb mp hchosen
        obtain ⟨i, hi, hfind⟩ := (find_chosen hM hne hs mp).mp hchosen
        obtain ⟨-, -, hstart, -⟩ := hchosen
        obtain ⟨m, below, hm, hN, hread⟩ := hconf i _ hfind
        rw [hi] at hm
        cases hm
        rw [← staysBelow_iff (hM mp (List.mem_of_getElem? hi)) hb hshort hne hs hstart hclimb']
        exact ⟨below, hN, by rw [← hread .unlink, call_path]⟩
      · intro h
        refine ⟨_, rfl, fun i stripped hfind => ?_⟩
        obtain ⟨mp, hi, -, -, rfl, -⟩ := findMountAndStripPath_some hfind
        have hchosen := (find_chosen hM hne hs mp).mpr ⟨i, hi, hfind⟩
        have hstays := h mp hchosen
        have hclimb' := hclimb mp hchosen
        obtain ⟨-, -, hstart, -⟩ := hchosen
        rw [← staysBelow_iff (hM mp (List.mem_of_getElem? hi)) hb hshort hne hs hstart hclimb']
          at hstays
        obtain ⟨below, hN, hread⟩ := hstays
        exact ⟨mp, below, hi, hN, fun op => by rw [call_path, hread]⟩
    · refine iff_of_false (hfault _ (hout hbound)) ?_
      simp [hp, hbound]
  · refine iff_of_false (hfault _ (resolvePath_long hp htext (not_lt.mp hfits))) ?_
    simp [hp, hfits]

/-- `/m/x` becomes the `x` of the backend directory `/b`. -/
theorem confined_below :
    Confined [mountM] [slash] [0x2f, 0x62] [0x2f, 0x6d, 0x2f, 0x78] := by
  rw [confined_iff mountM_normalised (by decide) (by decide) (by decide) (by decide)
    fun _ _ _ => by decide]
  refine Or.inr ⟨by decide, by decide, ⟨fun _ => by decide, trivial⟩, ?_⟩
  rintro mp ⟨i, hi, -, -⟩
  have hmp := List.mem_of_getElem? hi
  rw [List.mem_singleton] at hmp
  subst hmp
  refine ⟨by decide, ?_⟩
  rw [if_pos (by decide)]
  intro h
  exact absurd h (by decide)

/-- `/m..` is a name of its own, but `unlink` is called on the parent of the backend. -/
theorem unconfined_dotdot_name :
    (∃ stripped, dispatch [mountM] [slash] [0x2f, 0x6d, 0x2e, 0x2e] = .ok (some (0, stripped)) ∧
      PathOp.call [0x2f, 0x62] stripped .unlink = .unlink [0x2f, 0x62, 0x2f, 0x2e, 0x2e]) ∧
      ¬ Confined [mountM] [slash] [0x2f, 0x62] [0x2f, 0x6d, 0x2e, 0x2e] := by
  have hR : resolvePath [slash] [0x2f, 0x6d, 0x2e, 0x2e] = .ok (some [0x2f, 0x6d, 0x2e, 0x2e]) :=
    (resolvePath_eq (passable_root (by decide) (by decide) (by decide)) (by decide)).1
      ⟨fun _ => by decide, trivial⟩
  have hfind : findMountAndStripPath [mountM] [0x2f, 0x6d, 0x2e, 0x2e] = some (0, [0x2e, 0x2e]) := by
    decide
  constructor
  · exact ⟨[0x2e, 0x2e], by rw [dispatch_resolved hR, hfind], by decide⟩
  · rintro ⟨r, hr, hconf⟩
    rw [dispatch_resolved hR, hfind] at hr
    cases hr
    obtain ⟨mp, below, hmp, hN, -⟩ := hconf 0 [0x2e, 0x2e] rfl
    cases hmp
    have hcov : mountM.Covers (normalForm [slash] [0x2f, 0x6d, 0x2e, 0x2e]) := ⟨below, hN.symm⟩
    exact absurd hcov (by decide)

end Defuse
