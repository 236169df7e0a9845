import Defuse.Proofs.Confinement

/-! What `resolve_path` returns is a normal form with the meaning of its argument, and for
which arguments its array is large enough. -/

namespace Defuse

open CSem

variable {segs : List Seg} {cwd p : List UInt8}

/-- The segments of a normal form: an inner segment is a name, or the path starts with an
inner `..` and was left as it was. -/
structure NormalSegs (segs : List Seg) : Prop where
  nonempty : [] ∉ segs.dropLast
  not_dot : dot ∉ segs.dropLast
  front : dotdot ∈ segs.dropLast → ∃ tail, tail ≠ [] ∧ segs = dotdot :: tail

theorem resolved_normal (hs : Slashless segs) (hne : segs ≠ []) : NormalSegs (resolved segs) := by
  obtain ⟨V, last, rfl⟩ : ∃ V last, segs = V ++ [last] := ⟨_, _, pathSegs_concat segs hne⟩
  obtain ⟨W, hW, hsub⟩ := climb_subset [] ((V.filter (· ≠ dot)).filter (· ≠ [])) last
  have hres : resolved (V ++ [last]) = W ++ [last] := by
    unfold resolved
    rw [dropInner_concat, dropInner_concat, hW]
  have hmem : ∀ g ∈ (resolved (V ++ [last])).dropLast, g ≠ [] ∧ g ≠ dot := by
    intro g hg
    rw [hres, List.dropLast_concat] at hg
    rcases hsub g hg with h | h
    · cases h
    · simp only [List.mem_filter, decide_eq_true_eq] at h
      exact ⟨h.2, h.1.2⟩
  refine ⟨fun h => (hmem [] h).1 rfl, fun h => (hmem dot h).2 rfl, fun h => ?_⟩
  cases hnames : names [] V with
  | none => exact resolved_of_escape last hnames
  | some st =>
    -- below the root only names are left in front of the last segment
    rw [resolved_of_names hnames, List.dropLast_concat, List.mem_reverse] at h
    have hname := names_isName (by simp) (fun x hx => hs x (by simp [hx])) hnames dotdot h
    exact absurd rfl hname.2.2.1

theorem NormalSegs.dropInner_eq (h : NormalSegs segs) :
    dropInner [] (dropInner dot segs) = segs := by
  rw [dropInner_of_none (firstInner_eq_none_iff.mpr h.not_dot),
    dropInner_of_none (firstInner_eq_none_iff.mpr h.nonempty)]

theorem NormalSegs.resolved_eq (h : NormalSegs segs) : resolved segs = segs := by
  unfold resolved
  rw [h.dropInner_eq]
  by_cases hdd : dotdot ∈ segs.dropLast
  · obtain ⟨tail, htail, rfl⟩ := h.front hdd
    rw [climb_cons [] dotdot htail]
    rfl
  · exact climb_of_none [] hdd

theorem NormalSegs.inBounds (h : NormalSegs segs) : InBounds segs := by
  refine ⟨fun hdot => absurd hdot h.not_dot, ?_⟩
  rw [h.dropInner_eq]
  by_cases hdd : dotdot ∈ segs.dropLast
  · obtain ⟨tail, htail, rfl⟩ := h.front hdd
    obtain ⟨g, gs, rfl⟩ := List.exists_cons_of_ne_nil htail
    trivial
  · exact climbsWithin_of_none _ [] hdd

theorem resolvePath_absolute (h : p.head? = some slash) (cwd cwd' : List UInt8) :
    resolvePath cwd p = resolvePath cwd' p := by
  have hjoin : joinPath cwd p = joinPath cwd' p := by
    unfold joinPath
    rw [if_neg (not_not.mpr h), if_neg (not_not.mpr h)]
  unfold resolvePath
  rw [hjoin]

/-- `r` is the normal form of the path: absolute, at the same place, without `//` or `/./`,
with `/../` only where it starts with it, and resolved to itself. -/
structure NormalForm (cwd p r : List UInt8) : Prop where
  absolute : r.head? = some slash
  same_place : lexical (segments r.tail) = lexical (segments (joined cwd p).tail)
  no_double_slash : ¬ [slash, slash] <:+: r
  no_dot : ¬ inner dot <:+: r
  dotdot_in_front : inner dotdot <:+: r → inner dotdot <+: r
  stable : resolvePath cwd r = .ok (some r)

/-- The text of resolved segments is a normal form. -/
theorem normalForm_resolved (hs : Slashless segs) (hne : segs ≠ [])
    (h0 : 0 ∉ render (resolved segs)) (hlen : (render (resolved segs)).length < PATH_MAX)
    (hj : segments (joined cwd p).tail = segs) : NormalForm cwd p (render (resolved segs)) := by
  have hnormal := resolved_normal hs hne
  have hslash := resolved_slashless hs
  obtain ⟨g, gs, hcons⟩ : ∃ g gs, resolved segs = g :: gs := by
    apply List.exists_cons_of_ne_nil
    intro h
    obtain ⟨W, hW, -⟩ := climb_subset [] ((segs.dropLast.filter (· ≠ dot)).filter (· ≠ []))
      (segs.getLast?.getD [])
    have : resolved segs = W ++ [segs.getLast?.getD []] := by
      unfold resolved
      rw [← hW, ← dropInner_concat, ← dropInner_concat, ← pathSegs_concat segs hne]
    rw [h] at this
    simp at this
  have hhead : (render (resolved segs)).head? = some slash := by
    rw [hcons]
    rfl
  refine ⟨hhead, ?_, ?_, ?_, fun hin => ?_, ?_⟩
  · have htail : segments (render (resolved segs)).tail = resolved segs := by
      rw [hcons] at hslash ⊢
      exact segments_render hslash
    rw [htail, hj, lexical_resolved hs hne]
  · exact fun h => hnormal.nonempty ((inner_infix_iff (by simp) hslash).mp h)
  · exact fun h => hnormal.not_dot ((inner_infix_iff (by decide) hslash).mp h)
  · obtain ⟨tail, htail, heq⟩ := hnormal.front ((inner_infix_iff (by decide) hslash).mp hin)
    have hdd : slash ∉ dotdot := by decide
    rw [heq]
    exact (inner_prefix_iff hdd hdd tail).mpr ⟨rfl, htail⟩
  · -- a second run finds nothing to do
    have hjoin : joined [slash] (render (resolved segs)) = [] ++ render (resolved segs) :=
      if_neg (not_not.mpr hhead)
    have hin := (resolvePath_from (by rw [hcons]; simp) ⟨by decide, h0⟩ (by rw [hjoin]; exact hlen)
      (by simp) hslash hjoin).1 (inBoundsFrom_nil.mpr hnormal.inBounds)
    obtain ⟨r, hr, -, -, hres⟩ := hin
    rw [resolvePath_absolute hhead cwd [slash], hr, hres rfl, hnormal.resolved_eq]

/-- An argument of `resolve_path` with a joined text that fits: an absolute path, or a
relative one with an absolute working directory. -/
structure Resolvable (cwd p : List UInt8) : Prop where
  nonempty : p ≠ []
  text : 0 ∉ p
  cwd_abs : p.head? ≠ some slash → cwd.head? = some slash ∧ 0 ∉ cwd
  fits : (joined cwd p).length < PATH_MAX

/-- The passes reach the normal form exactly when their moves stay inside the array. -/
theorem normal_form_iff (cwd p : List UInt8) (h : Resolvable cwd p) :
    (∃ r, resolvePath cwd p = .ok (some r) ∧ NormalForm cwd p r) ↔
      InBounds (pathSegs cwd p) := by
  -- for an absolute path the root serves as the working directory
  obtain ⟨cwd', hpass, hjoin, hsame⟩ : ∃ cwd', Passable cwd' p ∧ joined cwd' p = joined cwd p ∧
      resolvePath cwd p = resolvePath cwd' p := by
    by_cases habs : p.head? = some slash
    · have hj : joined [slash] p = joined cwd p := by
        unfold joined
        rw [if_neg (not_not.mpr habs), if_neg (not_not.mpr habs)]
      exact ⟨[slash], ⟨rfl, ⟨by decide, h.text⟩, hj ▸ h.fits⟩, hj, resolvePath_absolute habs _ _⟩
    · exact ⟨cwd, ⟨(h.cwd_abs habs).1, ⟨(h.cwd_abs habs).2, h.text⟩, h.fits⟩, rfl, rfl⟩
  have hsegs : pathSegs cwd' p = pathSegs cwd p := by
    unfold pathSegs
    rw [hjoin]
  have hs : Slashless (pathSegs cwd p) := segments_slashless _
  have htext : joined cwd' p = [] ++ render (pathSegs cwd p) := by
    rw [List.nil_append, ← hsegs, render_pathSegs hpass]
  obtain ⟨hin, hout⟩ := resolvePath_from h.nonempty hpass.text hpass.fits (by simp) hs htext
  rw [inBoundsFrom_nil] at hin hout
  rw [hsame]
  refine ⟨?_, fun hb => ?_⟩
  · rintro ⟨r, hr, -⟩
    by_contra hb
    rw [hout hb] at hr
    cases hr
  · obtain ⟨r, hr, h0, hlen, hres⟩ := hin hb
    obtain rfl := hres rfl
    exact ⟨_, hr, normalForm_resolved hs (segments_ne_nil _) h0 hlen rfl⟩

def roundabout : List UInt8 :=
  [slash, 0x61, slash, slash, 0x2e, slash, 0x2e, 0x2e, slash, 0x62]

/-- Each of the passes has something to remove. -/
theorem normal_form_roundabout : Resolvable [slash] roundabout ∧
    ∃ r, resolvePath [slash] roundabout = .ok (some r) ∧ NormalForm [slash] roundabout r := by
  have h : Resolvable [slash] roundabout := ⟨by decide, by decide, by decide, by decide⟩
  have hb : InBounds (pathSegs [slash] roundabout) := inBoundsFrom_nil.mp (by decide)
  exact ⟨h, (normal_form_iff _ _ h).mpr hb⟩

def longDotPath : List UInt8 := [slash, 0x2e, slash] ++ List.replicate 4092 0x61

/-- Removing the dot moves a range that ends behind the array. -/
theorem no_normal_form_long : Resolvable [slash] longDotPath ∧
    ¬ ∃ r, resolvePath [slash] longDotPath = .ok (some r) ∧
      NormalForm [slash] longDotPath r := by
  refine ⟨⟨by decide +kernel, by decide +kernel, by decide +kernel, by decide +kernel⟩, ?_⟩
  rintro ⟨r, hr, -⟩
  have hout : resolvePath [slash] longDotPath = .error .outOfBounds := by decide +kernel
  rw [hout] at hr
  cases hr

theorem text_split (s : List UInt8) :
    slash ∉ (segments s).headI ∧ Slashless (segments s).tail ∧
      s = (segments s).headI ++ render (segments s).tail := by
  have hrender := render_segments s
  have hs := segments_slashless s
  cases hseg : segments s with
  | nil => exact absurd hseg (segments_ne_nil s)
  | cons c segs =>
    rw [hseg] at hrender hs
    refine ⟨hs c List.mem_cons_self, fun g hg => hs g (List.mem_cons_of_mem c hg), ?_⟩
    exact (List.cons.inj hrender).2.symm

/-- `resolve_path` stays inside its array and ends with a terminated text exactly when the
joined text fits and every move does. -/
theorem stays_inside_iff (cwd p : List UInt8) (hp : p ≠ []) (htext : 0 ∉ cwd ∧ 0 ∉ p) :
    (∃ r, resolvePath cwd p = .ok (some r)) ↔
      (joined cwd p).length < PATH_MAX ∧
        InBoundsFrom (segments (joined cwd p)).headI (segments (joined cwd p)).tail := by
  obtain ⟨hc, hs, hj⟩ := text_split (joined cwd p)
  by_cases hfits : (joined cwd p).length < PATH_MAX
  · rw [and_iff_right hfits]
    obtain ⟨hin, hout⟩ := resolvePath_from hp htext hfits hc hs hj
    refine ⟨?_, fun hb => ?_⟩
    · rintro ⟨r, hr⟩
      by_contra hb
      rw [hout hb] at hr
      cases hr
    · obtain ⟨r, hr, -⟩ := hin hb
      exact ⟨r, hr⟩
  · refine iff_of_false ?_ fun h => hfits h.1
    rintro ⟨r, hr⟩
    rw [resolvePath_long hp htext (not_lt.mp hfits)] at hr
    cases hr

/-- A relative path, `a/../b` in `/`. -/
theorem stays_inside_relative :
    ∃ r, resolvePath [slash] [0x61, slash, 0x2e, 0x2e, slash, 0x62] = .ok (some r) :=
  (stays_inside_iff _ _ (by decide) (by decide)).mpr (by decide)

/-- A path as long as the array leaves no room for the terminator. -/
theorem leaves_array_full :
    resolvePath [slash] (slash :: List.replicate 4095 0x61) = .error .outOfBounds ∧
      ¬ ∃ r, resolvePath [slash] (slash :: List.replicate 4095 0x61) = .ok (some r) := by
  have hjoin : joined [slash] (slash :: List.replicate 4095 0x61) =
      slash :: List.replicate 4095 0x61 := if_neg (not_not.mpr rfl)
  have hout : resolvePath [slash] (slash :: List.replicate 4095 0x61) = .error .outOfBounds := by
    refine resolvePath_long (List.cons_ne_nil _ _) ⟨by decide, ?_⟩ ?_
    · rw [List.mem_cons, List.mem_replicate]
      decide
    · rw [hjoin, List.length_cons, List.length_replicate]
      decide
  refine ⟨hout, ?_⟩
  rintro ⟨r, hr⟩
  rw [hout] at hr
  cases hr

end Defuse
