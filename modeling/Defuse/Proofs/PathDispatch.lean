import Defuse.Proofs.ResolvePath

/-! Which mount serves a path. The path a call is meant for is its lexical normal form,
and the mount it is meant for is the deepest one at or above that form. `DEFUSE_OP` takes
the first mount whose path the resolved text starts with. -/

namespace Defuse

open CSem

def normalForm (cwd p : List UInt8) : List Seg := lexical (pathSegs cwd p)

def pathText (c : List Seg) : List UInt8 := if c = [] then [slash] else render c

def MountPointData.components (mp : MountPointData) : List Seg := lexical (segments mp.mountPath.tail)

def MountPointData.Normalised (mp : MountPointData) : Prop :=
  ∃ c : List Seg, (∀ g ∈ c, IsName g) ∧ mp.mountPath = pathText c

def MountPointData.Covers (mp : MountPointData) (n : List Seg) : Prop := mp.components <+: n

instance (mp : MountPointData) (n : List Seg) : Decidable (mp.Covers n) :=
  inferInstanceAs (Decidable (mp.components <+: n))

def Deepest (mounts : List MountPointData) (n : List Seg) (mp : MountPointData) : Prop :=
  mp.Covers n ∧ ∀ m ∈ mounts, m.Covers n → m.mountPath.length ≤ mp.mountPath.length

/-- The call goes where its path points: to the deepest mount that covers it, or to the
real call when there is none. -/
def DispatchExact (mounts : List MountPointData) (cwd p : List UInt8) : Prop :=
  ∃ r, dispatch mounts cwd p = .ok r ∧
    match r with
    | none => p = [] ∨ ∀ mp ∈ mounts, ¬ mp.Covers (normalForm cwd p)
    | some (i, _) => p ≠ [] ∧ ∃ mp, mounts[i]? = some mp ∧ Deepest mounts (normalForm cwd p) mp

def visited (st : List Seg) (last : Seg) : List Seg :=
  st.reverse ++ if IsName last then [last] else []

/-- The condition on the mounts, for the segments of the path. Above the root the text
keeps its `..`, so that only a mount at the root is found. The text `/` is passed over.
Otherwise the first mount whose path starts the text has to be a deepest one. -/
def SelectionOk (mounts : List MountPointData) (segs : List Seg) : Prop :=
  match names [] segs.dropLast with
  | none => ∀ mp ∈ mounts, mp.Covers (lexical segs) → mp.mountPath = [slash]
  | some st =>
    if st = [] ∧ segs.getLast? = some [] then ∀ mp ∈ mounts, mp.mountPath ≠ [slash]
    else ∀ (i : ℕ) (mp : MountPointData), mounts[i]? = some mp →
      mp.mountPath <+: pathText (visited st (segs.getLast?.getD [])) →
      ∃ (j : ℕ) (m : MountPointData), j ≤ i ∧ mounts[j]? = some m ∧ Deepest mounts (lexical segs) m

variable {mounts : List MountPointData} {c : List Seg}

theorem pathText_tail_segments (hc : ∀ g ∈ c, IsName g) :
    lexical (segments (pathText c).tail) = c := by
  cases c with
  | nil => rfl
  | cons g gs =>
    have hs : Slashless (g :: gs) := fun x hx => (hc x hx).2.2.2
    have htail : (pathText (g :: gs)).tail = g ++ render gs := rfl
    rw [htail, segments_render hs, lexical, foldl_enter_names [] _ hc]
    simp

theorem components_eq {mp : MountPointData} (hc : ∀ g ∈ c, IsName g)
    (hmp : mp.mountPath = pathText c) : mp.components = c := by
  unfold MountPointData.components
  rw [hmp, pathText_tail_segments hc]

theorem pathText_mono {c d : List Seg} (h : c <+: d) : pathText c <+: pathText d := by
  obtain ⟨e, rfl⟩ := h
  unfold pathText
  cases c with
  | nil =>
    cases e with
    | nil => simp
    | cons g gs => simp
  | cons g gs => simp

theorem pathText_eq_root {c : List Seg} (hc : ∀ g ∈ c, IsName g) :
    pathText c = [slash] ↔ c = [] := by
  constructor
  · intro h
    cases c with
    | nil => rfl
    | cons g gs =>
      have hg := (hc g (by simp)).1
      simp only [pathText, reduceCtorEq, if_false, render_cons, List.cons.injEq, true_and,
        List.append_eq_nil_iff] at h
      exact absurd h.1 hg
  · rintro rfl
    rfl

theorem not_isName_of_start {z last : Seg} (hlast : last = [] ∨ last = dot ∨ last = dotdot)
    (hz : z <+: last) : ¬ IsName z := by
  rintro ⟨h1, h2, h3, -⟩
  obtain ⟨r, hr⟩ := hz
  match z, h1, h2, h3 with
  | [], h1, _, _ => exact h1 rfl
  | [a], _, h2, _ =>
    rcases hlast with rfl | rfl | rfl
    · cases hr
    · cases hr
      exact h2 rfl
    · cases hr
      exact h2 rfl
  | a :: b :: z, _, _, h3 =>
    rcases hlast with rfl | rfl | rfl
    · cases hr
    · cases hr
    · simp only [dotdot, List.cons_append, List.cons.injEq, List.append_eq_nil_iff] at hr
      obtain ⟨rfl, rfl, rfl, -⟩ := hr
      exact h3 rfl

theorem not_isName_iff {g : Seg} (hg : slash ∉ g) :
    ¬ IsName g ↔ g = [] ∨ g = dot ∨ g = dotdot := by
  unfold IsName
  tauto

theorem pathText_prefix_iff {T : List Seg} (hc : ∀ g ∈ c, IsName g) (hT : Slashless T)
    (hne : T ≠ []) :
    pathText c <+: render T ↔
      c = [] ∨ ∃ c0 z w T', c = c0 ++ [z] ∧ T = c0 ++ w :: T' ∧ z <+: w := by
  rcases List.eq_nil_or_concat c with rfl | ⟨c0, z, rfl⟩
  · obtain ⟨g, gs, rfl⟩ := List.exists_cons_of_ne_nil hne
    simp [pathText]
  · rw [List.concat_eq_append] at hc ⊢
    have hs : Slashless (c0 ++ [z]) := fun x hx => (hc x hx).2.2.2
    have htext : pathText (c0 ++ [z]) = render (c0 ++ [z]) := by simp [pathText]
    rw [htext, render_prefix_iff hs hT]
    constructor
    · rintro ⟨w, T', heq, hz⟩
      exact Or.inr ⟨c0, z, w, T', rfl, heq, hz⟩
    · rintro (h | ⟨c1, z1, w, T', heq, hT', hz⟩)
      · simp at h
      · obtain ⟨rfl, hzz⟩ := List.append_inj' heq rfl
        cases hzz
        exact ⟨w, T', hT', hz⟩

theorem escaped_prefix_iff {tail : List Seg} (hc : ∀ g ∈ c, IsName g)
    (hT : Slashless (dotdot :: tail)) : pathText c <+: render (dotdot :: tail) ↔ c = [] := by
  rw [pathText_prefix_iff hc hT (by simp)]
  refine or_iff_left ?_
  rintro ⟨c0, z, w, T', rfl, heq, hz⟩
  cases c0 with
  | nil =>
    obtain ⟨rfl, rfl⟩ := List.cons.inj heq
    exact not_isName_of_start (Or.inr (Or.inr rfl)) hz (hc z (by simp))
  | cons g gs =>
    obtain ⟨rfl, -⟩ := List.cons.inj heq
    exact (hc dotdot (by simp)).2.2.1 rfl

/-- The last segment of the text matters to the test only when it is a name. -/
theorem visited_prefix_iff {st : List Seg} {last : Seg} (hc : ∀ g ∈ c, IsName g)
    (hT : Slashless (st.reverse ++ [last])) :
    pathText c <+: render (st.reverse ++ [last]) ↔ pathText c <+: pathText (visited st last) := by
  have hlast : slash ∉ last := hT last (by simp)
  by_cases hn : IsName last
  · have hv : visited st last = st.reverse ++ [last] := by simp [visited, hn]
    rw [hv]
    simp [pathText]
  · have hv : visited st last = st.reverse := by simp [visited, hn]
    rw [hv, pathText_prefix_iff hc hT (by simp)]
    have hst : Slashless st.reverse := fun x hx => hT x (by simp [List.mem_reverse.mp hx])
    by_cases hempty : st.reverse = []
    · rw [hempty]
      constructor
      · rintro (rfl | ⟨c0, z, w, T', rfl, heq, hz⟩)
        · simp [pathText]
        · rw [List.nil_append] at heq
          cases c0 with
          | nil =>
            obtain ⟨rfl, -⟩ := List.cons.inj heq
            exact absurd (hc z (by simp)) (not_isName_of_start ((not_isName_iff hlast).mp hn) hz)
          | cons g gs =>
            have := congrArg List.length heq
            simp at this
      · intro h
        left
        have hlen := h.length_le
        cases c with
        | nil => rfl
        | cons g gs =>
          have hg := List.length_pos_iff_ne_nil.mpr (hc g (by simp)).1
          simp only [pathText, reduceCtorEq, if_false, if_true, render_cons, List.length_cons,
            List.length_append, List.length_nil] at hlen
          omega
    · have htext : pathText st.reverse = render st.reverse := by simp only [pathText, hempty, if_false]
      rw [htext, pathText_prefix_iff hc hst hempty]
      refine or_congr_right ?_
      constructor
      · rintro ⟨c0, z, w, T', rfl, heq, hz⟩
        rcases List.eq_nil_or_concat T' with rfl | ⟨T'', l, rfl⟩
        · obtain ⟨-, hwl⟩ := List.append_inj' heq rfl
          cases hwl
          exact absurd (hc z (by simp)) (not_isName_of_start ((not_isName_iff hlast).mp hn) hz)
        · rw [List.concat_eq_append, ← List.cons_append, ← List.append_assoc] at heq
          obtain ⟨hst', -⟩ := List.append_inj' heq rfl
          exact ⟨c0, z, w, T'', rfl, hst', hz⟩
      · rintro ⟨c0, z, w, T', rfl, heq, hz⟩
        exact ⟨c0, z, w, T' ++ [last], rfl, by rw [heq]; simp, hz⟩

theorem findMountAndStripPath_none_iff (R : List UInt8) :
    findMountAndStripPath mounts R = none ↔
      ∀ mp ∈ mounts, mp.mountPath <+: R → ¬ R.length > 1 := by
  unfold findMountAndStripPath
  simp only [strstr_eq_zero_iff]
  cases hidx : mounts.findIdx? fun m => decide (m.mountPath <+: R ∧ R.length > 1) with
  | none =>
    rw [List.findIdx?_eq_none_iff] at hidx
    refine iff_of_true rfl ?_
    intro mp hmp hpre hlen
    have := hidx mp hmp
    simp only [decide_eq_false_iff_not, not_and] at this
    exact this hpre hlen
  | some i =>
    obtain ⟨hi, hp, -⟩ := List.findIdx?_eq_some_iff_getElem.mp hidx
    simp only [decide_eq_true_eq] at hp
    refine iff_of_false ?_ ?_
    · simp [List.getElem?_eq_getElem hi]
    · intro h
      exact h _ (List.getElem_mem hi) hp.1 hp.2

theorem findMountAndStripPath_some {R stripped : List UInt8} {i : ℕ}
    (h : findMountAndStripPath mounts R = some (i, stripped)) :
    ∃ mp, mounts[i]? = some mp ∧ mp.mountPath <+: R ∧ R.length > 1 ∧
      stripped = stripPath mp.mountPath R ∧
      ∀ (j : ℕ) (m : MountPointData), j < i → mounts[j]? = some m → ¬ m.mountPath <+: R := by
  unfold findMountAndStripPath at h
  simp only [strstr_eq_zero_iff] at h
  obtain ⟨k, hk, h⟩ := Option.bind_eq_some_iff.mp h
  obtain ⟨mp, hmp, h⟩ := Option.bind_eq_some_iff.mp h
  cases h
  obtain ⟨hi, hp, hfirst⟩ := List.findIdx?_eq_some_iff_getElem.mp hk
  rw [List.getElem?_eq_getElem hi] at hmp
  cases hmp
  simp only [decide_eq_true_eq] at hp
  refine ⟨_, List.getElem?_eq_getElem hi, hp.1, hp.2, rfl, ?_⟩
  intro j m hj hm hpre
  obtain ⟨hj', rfl⟩ := List.getElem?_eq_some_iff.mp hm
  have := hfirst j hj
  simp only [Bool.not_eq_true, decide_eq_false_iff_not, not_and] at this
  exact this hpre hp.2

theorem enter_prefix_visited {st : List Seg} {last : Seg} (hlast : slash ∉ last) :
    (enter st last).reverse <+: visited st last := by
  by_cases hn : IsName last
  · obtain ⟨h1, h2, h3, -⟩ := hn
    have hv : visited st last = st.reverse ++ [last] := by
      simp only [visited]
      rw [if_pos ⟨h1, h2, h3, hlast⟩]
    rw [hv]
    simp [enter, h1, h2, h3]
  · have hv : visited st last = st.reverse := by simp [visited, hn]
    rw [hv]
    rcases (not_isName_iff hlast).mp hn with rfl | rfl | rfl
    · exact List.prefix_refl _
    · exact List.prefix_refl _
    · have : enter st dotdot = st.tail := rfl
      rw [this]
      cases st with
      | nil => exact List.prefix_refl _
      | cons y st => simp

theorem pathSegs_concat (segs : List Seg) (hne : segs ≠ []) :
    segs = segs.dropLast ++ [segs.getLast?.getD []] := by
  rcases List.eq_nil_or_concat segs with rfl | ⟨gs, last, rfl⟩
  · exact absurd rfl hne
  · simp

theorem resolved_of_names {V st : List Seg} {last : Seg} (h : names [] V = some st) :
    resolved (V ++ [last]) = st.reverse ++ [last] := by
  unfold resolved
  rw [dropInner_concat, dropInner_concat]
  refine (climb_concat [] _ last ?_).1 st (by rw [names_filter, h])
  intro g hg
  simp only [List.mem_filter, decide_eq_true_eq] at hg
  exact ⟨hg.2, hg.1.2⟩

theorem resolved_of_escape {V : List Seg} (last : Seg) (h : names [] V = none) :
    ∃ tail, tail ≠ [] ∧ resolved (V ++ [last]) = dotdot :: tail := by
  unfold resolved
  rw [dropInner_concat, dropInner_concat]
  refine (climb_concat [] _ last ?_).2 (by rw [names_filter, h])
  intro g hg
  simp only [List.mem_filter, decide_eq_true_eq] at hg
  exact ⟨hg.2, hg.1.2⟩

/-- The search picks a deepest mount for `n`, or none when none covers it. -/
def Selects (mounts : List MountPointData) (R : List UInt8) (n : List Seg) : Prop :=
  match findMountAndStripPath mounts R with
  | none => ∀ mp ∈ mounts, ¬ mp.Covers n
  | some (i, _) => ∃ mp, mounts[i]? = some mp ∧ Deepest mounts n mp

theorem selects_iff_first {R : List UInt8} {n : List Seg} (hlen : R.length > 1)
    (hcov : ∀ mp ∈ mounts, mp.Covers n → mp.mountPath <+: R) :
    Selects mounts R n ↔ ∀ (i : ℕ) (mp : MountPointData), mounts[i]? = some mp →
      mp.mountPath <+: R →
      ∃ (j : ℕ) (m : MountPointData), j ≤ i ∧ mounts[j]? = some m ∧ Deepest mounts n m := by
  unfold Selects
  cases hfind : findMountAndStripPath mounts R with
  | none =>
    rw [findMountAndStripPath_none_iff] at hfind
    refine iff_of_true ?_ ?_
    · intro mp hmp hc
      exact hfind mp hmp (hcov mp hmp hc) hlen
    · intro i mp hi hpre
      exact absurd hlen (hfind mp (List.mem_of_getElem? hi) hpre)
  | some r =>
    obtain ⟨k, stripped⟩ := r
    obtain ⟨mp, hk, hpre, -, -, hfirst⟩ := findMountAndStripPath_some hfind
    constructor
    · rintro ⟨m, hm, hdeep⟩ i mp' hi hpre'
      refine ⟨k, m, ?_, hm, hdeep⟩
      by_contra hlt
      exact hfirst i mp' (not_le.mp hlt) hi hpre'
    · intro h
      obtain ⟨j, m, hj, hm, hdeep⟩ := h k mp hk hpre
      have hjk : j = k := by
        by_contra hne
        exact hfirst j m (by omega) hm (hcov m (List.mem_of_getElem? hm) hdeep.1)
      rw [hjk] at hm
      exact ⟨m, hm, hdeep⟩

/-- Above the root: only a mount at the root is found. -/
theorem selects_escape_iff (hM : ∀ mp ∈ mounts, mp.Normalised) {tail n : List Seg}
    (hT : Slashless (dotdot :: tail)) :
    Selects mounts (render (dotdot :: tail)) n ↔
      ∀ mp ∈ mounts, mp.Covers n → mp.mountPath = [slash] := by
  have hlen : (render (dotdot :: tail)).length > 1 := by simp [dotdot]
  have hpre : ∀ mp ∈ mounts, mp.mountPath <+: render (dotdot :: tail) ↔ mp.mountPath = [slash] := by
    intro mp hmp
    obtain ⟨c, hc, hpath⟩ := hM mp hmp
    rw [hpath, escaped_prefix_iff hc hT, pathText_eq_root hc]
  have hroot : ∀ mp ∈ mounts, mp.mountPath = [slash] → mp.Covers n := by
    intro mp _ h
    have hcomp : mp.components = [] := components_eq (c := []) (by simp) h
    unfold MountPointData.Covers
    rw [hcomp]
    exact List.nil_prefix
  unfold Selects
  cases hfind : findMountAndStripPath mounts (render (dotdot :: tail)) with
  | none =>
    rw [findMountAndStripPath_none_iff] at hfind
    constructor
    · intro h mp hmp hc
      exact absurd hc (h mp hmp)
    · intro h mp hmp hc
      exact hfind mp hmp ((hpre mp hmp).mpr (h mp hmp hc)) hlen
  | some r =>
    obtain ⟨k, stripped⟩ := r
    obtain ⟨mp, hk, hp, -, -, -⟩ := findMountAndStripPath_some hfind
    have hmp := List.mem_of_getElem? hk
    have hslash := (hpre mp hmp).mp hp
    constructor
    · rintro ⟨m, hm, hdeep⟩ mp' hmp' hc
      rw [hk] at hm
      cases hm
      obtain ⟨c, hcn, hpath⟩ := hM mp' hmp'
      have hle := hdeep.2 mp' hmp' hc
      rw [hslash, hpath] at hle
      rw [hpath]
      cases c with
      | nil => rfl
      | cons g gs =>
        have hg := List.length_pos_iff_ne_nil.mpr (hcn g (by simp)).1
        simp only [pathText, reduceCtorEq, if_false, render_cons, List.length_cons,
          List.length_append, List.length_nil] at hle
        omega
    · intro h
      refine ⟨mp, hk, hroot mp hmp hslash, ?_⟩
      intro m hm hc
      rw [h m hm hc, hslash]

theorem pathText_visited {st : List Seg} {last : Seg} (hne : ¬ (st = [] ∧ last = [])) :
    (render (st.reverse ++ [last])).length > 1 := by
  rw [render_append, List.length_append, render_cons, List.length_cons, List.length_append]
  by_cases hlast : last = []
  · have hst : st.reverse ≠ [] := by
      intro h
      exact hne ⟨List.reverse_eq_nil_iff.mp h, hlast⟩
    have := List.length_pos_iff_ne_nil.mpr (mt (render_eq_nil_iff _).mp hst)
    omega
  · have := List.length_pos_iff_ne_nil.mpr hlast
    omega

/-- The search over the resolved text, in terms of the segments of the path. -/
theorem selects_iff (hM : ∀ mp ∈ mounts, mp.Normalised) {segs : List Seg} (hne : segs ≠ [])
    (hs : Slashless segs) :
    Selects mounts (render (resolved segs)) (lexical segs) ↔ SelectionOk mounts segs := by
  have hslashless : Slashless (resolved segs) :=
    Slashless.climb (by simp [Slashless]) ((hs.dropInner dot).dropInner [])
  obtain ⟨V, last, rfl⟩ : ∃ V last, segs = V ++ [last] := ⟨_, _, pathSegs_concat segs hne⟩
  have hlast : slash ∉ last := hs last (by simp)
  unfold SelectionOk
  rw [List.dropLast_concat, List.getLast?_concat, Option.getD_some]
  cases hnames : names [] V with
  | none =>
    obtain ⟨tail, -, heq⟩ := resolved_of_escape last hnames
    rw [heq] at hslashless ⊢
    exact selects_escape_iff hM hslashless
  | some st =>
    have hN : lexical (V ++ [last]) = (enter st last).reverse := by
      rw [lexical_concat, foldl_enter_of_names hnames]
    rw [resolved_of_names hnames] at hslashless ⊢
    by_cases hroot : st = [] ∧ last = []
    · -- the text is `/`, which the search passes over
      obtain ⟨rfl, rfl⟩ := hroot
      have hnone : findMountAndStripPath mounts (render [[]]) = none := by
        rw [findMountAndStripPath_none_iff]
        intro mp _ _
        simp
      have hcovers : ∀ mp ∈ mounts, mp.Covers [] ↔ mp.mountPath = [slash] := by
        intro mp hmp
        obtain ⟨c, hc, hpath⟩ := hM mp hmp
        unfold MountPointData.Covers
        rw [components_eq hc hpath, List.prefix_nil, hpath, pathText_eq_root hc]
      rw [hN]
      simp only [Selects, List.reverse_nil, List.nil_append, hnone, and_self, if_true, enter, true_or]
      exact forall₂_congr fun mp hmp => not_congr (hcovers mp hmp)
    · have hpre : ∀ mp ∈ mounts, mp.mountPath <+: render (st.reverse ++ [last]) ↔
          mp.mountPath <+: pathText (visited st last) := by
        intro mp hmp
        obtain ⟨c, hc, hpath⟩ := hM mp hmp
        rw [hpath, visited_prefix_iff hc hslashless]
      have hcov : ∀ mp ∈ mounts, mp.Covers (lexical (V ++ [last])) →
          mp.mountPath <+: render (st.reverse ++ [last]) := by
        intro mp hmp hcovers
        rw [hpre mp hmp]
        obtain ⟨c, hc, hpath⟩ := hM mp hmp
        unfold MountPointData.Covers at hcovers
        rw [components_eq hc hpath, hN] at hcovers
        rw [hpath]
        exact pathText_mono (hcovers.trans (enter_prefix_visited hlast))
      rw [selects_iff_first (pathText_visited hroot) hcov]
      simp only [Option.some.injEq, hroot, if_false]
      refine forall₃_congr fun i mp hi => ?_
      rw [hpre mp (List.mem_of_getElem? hi)]

theorem dispatch_empty (cwd : List UInt8) :
    dispatch mounts cwd [] = if mounts = [] then .ok none else .error .nullDeref := rfl

theorem dispatch_resolved {cwd p R : List UInt8} (hR : resolvePath cwd p = .ok (some R)) :
    dispatch mounts cwd p = .ok (findMountAndStripPath mounts R) := by
  unfold dispatch
  rw [hR]
  rfl

theorem dispatch_fault {cwd p : List UInt8} {e : Fault} (he : resolvePath cwd p = .error e) :
    dispatch mounts cwd p = .error e := by
  unfold dispatch
  rw [he]
  rfl

theorem dispatchExact_iff_selects {cwd p R : List UInt8} (hp : p ≠ [])
    (hR : resolvePath cwd p = .ok (some R)) :
    DispatchExact mounts cwd p ↔ Selects mounts R (normalForm cwd p) := by
  unfold DispatchExact Selects
  rw [dispatch_resolved hR]
  simp only [Except.ok.injEq, exists_eq_left']
  cases findMountAndStripPath mounts R with
  | none => simp [hp]
  | some r => simp [hp]

def mountM : MountPointData := ⟨0, [0x2f, 0x6d], [0x2f, 0x62], []⟩

theorem mountM_normalised : ∀ mp ∈ [mountM], mp.Normalised := by
  intro mp hmp
  rw [List.mem_singleton] at hmp
  subst hmp
  exact ⟨[[0x6d]], by decide, by decide⟩

theorem passable_root {p : List UInt8} (hp : p.head? = some slash) (h0 : 0 ∉ p)
    (hlen : p.length < PATH_MAX) : Passable [slash] p := by
  have hj : joined [slash] p = p := by
    unfold joined
    rw [if_neg (not_not.mpr hp)]
  exact ⟨rfl, ⟨by decide, h0⟩, by rw [hj]; exact hlen⟩

/-- Path dispatch is exact for the paths that stay inside the array of `resolve_path` and
select a deepest mount, and for no others. -/
theorem dispatch_exact_iff {cwd p : List UInt8} (hM : ∀ mp ∈ mounts, mp.Normalised)
    (h : Passable cwd p) :
    DispatchExact mounts cwd p ↔
      (p = [] ∧ mounts = []) ∨
        (p ≠ [] ∧ InBounds (pathSegs cwd p) ∧ SelectionOk mounts (pathSegs cwd p)) := by
  by_cases hp : p = []
  · subst hp
    unfold DispatchExact
    rw [dispatch_empty]
    by_cases hm : mounts = []
    · simp [hm]
    · simp [hm]
  · obtain ⟨hin, hout⟩ := resolvePath_eq h hp
    by_cases hb : InBounds (pathSegs cwd p)
    · have hsel : Selects mounts (render (resolved (pathSegs cwd p))) (normalForm cwd p) ↔
          SelectionOk mounts (pathSegs cwd p) :=
        selects_iff hM (segments_ne_nil _) (segments_slashless _)
      rw [dispatchExact_iff_selects hp (hin hb), hsel]
      simp [hp, hb]
    · unfold DispatchExact
      rw [dispatch_fault (hout hb)]
      simp [hp, hb]

/-- `/m/x` goes to the mount at `/m`. -/
theorem dispatch_exact_below :
    DispatchExact [mountM] [slash] [0x2f, 0x6d, 0x2f, 0x78] := by
  rw [dispatch_exact_iff mountM_normalised (passable_root (by decide) (by decide) (by decide))]
  refine Or.inr ⟨by decide, ⟨fun _ => by decide, trivial⟩, ?_⟩
  change ∀ (i : ℕ) (mp : MountPointData), _ → _ → _
  intro i mp hi _
  refine ⟨0, mountM, Nat.zero_le i, rfl, by decide, ?_⟩
  intro m hm _
  rw [List.mem_singleton] at hm
  rw [hm]

/-- `/mx` is a name of its own, but its text starts with `/m`. -/
theorem dispatch_inexact_longer_name :
    (∃ stripped, dispatch [mountM] [slash] [0x2f, 0x6d, 0x78] = .ok (some (0, stripped))) ∧
      ¬ DispatchExact [mountM] [slash] [0x2f, 0x6d, 0x78] := by
  have hR : resolvePath [slash] [0x2f, 0x6d, 0x78] = .ok (some [0x2f, 0x6d, 0x78]) :=
    (resolvePath_eq (passable_root (by decide) (by decide) (by decide)) (by decide)).1
      ⟨fun _ => by decide, trivial⟩
  constructor
  · refine ⟨[0x78], ?_⟩
    rw [dispatch_resolved hR]
    decide
  · rw [dispatchExact_iff_selects (by decide) hR]
    rintro ⟨mp, hmp, hcov, -⟩
    cases hmp
    exact absurd hcov (by decide)

end Defuse
