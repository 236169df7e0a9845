import Defuse.Spec.Util

/-! `resolve_path` on segments: the first two passes drop the inner `.` and the inner
empty segments, the third cancels `..`. Each pass either stays inside the array and does
that, or reads behind its end. -/

namespace Defuse

open CSem

variable {buf c : List UInt8} {segs : List Seg}

/-- One round of `remove_path_string` takes the segment out. -/
theorem removePathString_round {x : Seg} {pre post : List Seg}
    (hold : HoldsText buf (c ++ render (pre ++ x :: post)))
    (hroom : (c ++ render (pre ++ x :: post)).length + (x.length + 1) ≤ buf.length) :
    ∃ buf', (memmove buf (c ++ render pre).length ((c ++ render pre).length + (x.length + 1) : ℕ)
        ((c ++ render (pre ++ x :: post)).length - (c ++ render pre).length) >>=
          fun buf => store buf ((c ++ render (pre ++ x :: post)).length - (x.length + 1)) 0) =
        .ok buf' ∧
      HoldsText buf' (c ++ render (pre ++ post)) ∧ buf'.length = buf.length := by
  have hlen : (c ++ render (pre ++ x :: post)).length =
      (c ++ render pre).length + (x.length + 1) + (render post).length := by
    simp only [render_append, render_cons, List.length_append, List.length_cons]
    omega
  obtain ⟨buf', heq, htext, hl⟩ := memmove_cut (a := (c ++ render pre).length)
    (b := (c ++ render pre).length + (x.length + 1))
    (n := (c ++ render (pre ++ x :: post)).length - (c ++ render pre).length) hold (by omega)
    (by omega) (by omega) (by omega)
  refine ⟨buf', ?_, ?_, hl⟩
  · rw [Nat.add_sub_cancel_left] at heq
    exact heq
  · have hcut : (c ++ render (pre ++ x :: post)).take (c ++ render pre).length ++
        (c ++ render (pre ++ x :: post)).drop ((c ++ render pre).length + (x.length + 1)) =
          c ++ render (pre ++ post) := by
      have hdrop : (render (x :: post)).drop (x.length + 1) = render post := by
        rw [render_cons, List.drop_succ_cons, List.drop_left]
      rw [render_append, ← List.append_assoc, List.take_left, ← List.drop_drop, List.drop_left,
        hdrop, render_append, List.append_assoc]
    rw [hcut] at htext
    exact htext

section Loops

variable (hc : slash ∉ c)

include hc

/-- The loop of `remove_path_string` over a text of segments. -/
theorem removePathStringLoop_eq {x : Seg} (hx : slash ∉ x) (hs : Slashless segs)
    (hold : HoldsText buf (c ++ render segs))
    (hroom : firstInner x segs = none ∨ (c ++ render segs).length + (x.length + 1) ≤ buf.length)
    {limit : ℕ} (hlimit : (c ++ render segs).length < limit) :
    ∃ buf', removePathStringLoop (inner x) limit buf (c ++ render segs).length = .ok buf' ∧
      HoldsText buf' (c ++ render (dropInner x segs)) ∧ buf'.length = buf.length := by
  induction limit generalizing segs buf with
  | zero => omega
  | succ limit ih =>
    have hlen : (CSem.inner x).length - 1 = x.length + 1 := by simp [CSem.inner]
    rw [removePathStringLoop, hold.loadString, ok_bind, strstr_head hc hx hs]
    cases hfirst : firstInner x segs with
    | none =>
      rw [dropInner_of_none hfirst]
      exact ⟨buf, rfl, hold, rfl⟩
    | some pre =>
      obtain ⟨post, rfl, hne, hxpre⟩ := firstInner_some hfirst
      have hroom' := hroom.resolve_left (by rw [hfirst]; simp)
      obtain ⟨buf', hround, htext, hl⟩ := removePathString_round hold hroom'
      have hshort : (c ++ render (pre ++ x :: post)).length =
          (c ++ render (pre ++ post)).length + (x.length + 1) := by
        simp only [render_append, render_cons, List.length_append, List.length_cons]
        omega
      have hs' : Slashless (pre ++ post) := by
        intro g hg
        refine hs g ?_
        rcases List.mem_append.mp hg with h | h <;> simp [h]
      obtain ⟨buf'', hloop, htext', hl'⟩ := ih hs' htext (Or.inr (by omega)) (by omega)
      refine ⟨buf'', ?_, ?_, by omega⟩
      · simp only [Option.map_some, hlen]
        rw [show ((c ++ render pre).length : ℤ) + ((x.length + 1 : ℕ) : ℤ) =
          (((c ++ render pre).length + (x.length + 1) : ℕ) : ℤ) by push_cast; rfl, hround, ok_bind,
          hshort, Nat.add_sub_cancel, hloop]
      · rw [dropInner_cut hxpre hne]
        exact htext'

theorem removePathStringLoop_error {x : Seg} (hx : slash ∉ x) (hs : Slashless segs)
    (hold : HoldsText buf (c ++ render segs)) (hfirst : firstInner x segs ≠ none)
    (hroom : buf.length < (c ++ render segs).length + (x.length + 1)) (limit : ℕ) :
    removePathStringLoop (inner x) (limit + 1) buf (c ++ render segs).length =
      .error .outOfBounds := by
  have hlen : (CSem.inner x).length - 1 = x.length + 1 := by simp [CSem.inner]
  obtain ⟨pre, hpre⟩ := Option.ne_none_iff_exists'.mp hfirst
  obtain ⟨post, rfl, hne, -⟩ := firstInner_some hpre
  have hlt : (c ++ render pre).length < (c ++ render (pre ++ x :: post)).length := by
    simp only [render_append, render_cons, List.length_append, List.length_cons]
    omega
  rw [removePathStringLoop, hold.loadString, ok_bind, strstr_head hc hx hs, hpre]
  simp only [Option.map_some, hlen]
  rw [memmove_error (by omega) (by omega)]
  rfl

omit hc in
theorem slashBefore_eq {u v : List UInt8} {y : Seg} (hy : slash ∉ y) :
    slashBefore (u ++ slash :: (y ++ v)) (u.length + 1 + y.length) = u.length := by
  have hscan : ∀ j ≤ y.length, slashBefore (u ++ slash :: (y ++ v)) (u.length + 1 + j) = u.length := by
    intro j
    induction j with
    | zero =>
      intro _
      simp [slashBefore]
    | succ j ih =>
      intro hj
      have hget : (u ++ slash :: (y ++ v))[u.length + 1 + j]? = some y[j] := by
        rw [List.getElem?_append_right (by omega),
          show u.length + 1 + j - u.length = j + 1 by omega, List.getElem?_cons_succ,
          List.getElem?_append_left (by omega), List.getElem?_eq_getElem (by omega)]
      have hne : y[j] ≠ slash := by
        intro h
        exact hy (h ▸ List.getElem_mem _)
      rw [← Nat.add_assoc, slashBefore, hget, if_neg (by simpa using hne), ih (by omega)]
  exact hscan _ (le_refl _)

theorem slashBefore_none (v : List UInt8) : slashBefore (c ++ v) c.length = -1 := by
  have hscan : ∀ j ≤ c.length, slashBefore (c ++ v) j = -1 := by
    intro j
    induction j with
    | zero =>
      intro _
      rfl
    | succ j ih =>
      intro hj
      have hne : c.get ⟨j, hj⟩ ≠ slash := by
        intro h
        exact hc (h ▸ List.get_mem _ _)
      rw [slashBefore, List.getElem?_append_left (by omega), List.getElem?_eq_getElem (by omega),
        if_neg (by simpa using hne), ih (by omega)]
  exact hscan _ (le_refl _)

omit hc in
/-- One round of `remove_dot_dot`: the match and the segment before it. -/
theorem removeDotDot_round {st gs : List Seg} {y : Seg} (hy : slash ∉ y) (hgs : gs ≠ [])
    (hold : HoldsText buf (c ++ render ((y :: st).reverse ++ dotdot :: gs))) :
    let k := (c ++ render (y :: st).reverse).length
    let pLen := (c ++ render ((y :: st).reverse ++ dotdot :: gs)).length
    let chars := (((k + 3 : ℕ) : ℤ) - slashBefore buf k).toNat
    let round := memmove buf (slashBefore buf k) (k + 3 : ℕ) (pLen - chars) >>=
      fun buf => store buf (pLen - chars) 0
    pLen - chars = (c ++ render (st.reverse ++ gs)).length ∧
    ((c ++ render st.reverse).length + pLen ≤ buf.length →
      ∃ buf', round = .ok buf' ∧ HoldsText buf' (c ++ render (st.reverse ++ gs)) ∧
        buf'.length = buf.length) ∧
    (buf.length < (c ++ render st.reverse).length + pLen → round = .error .outOfBounds) := by
  intro k pLen chars round
  have hk : k = (c ++ render st.reverse).length + 1 + y.length := by
    simp only [k, List.reverse_cons, render_append, render_cons, render_nil, List.append_nil,
      List.length_append, List.length_cons]
    omega
  have hstart : slashBefore buf k = (c ++ render st.reverse).length := by
    obtain ⟨⟨rest, hbuf⟩, -⟩ := hold
    rw [hbuf, hk]
    simp only [List.reverse_cons, List.append_assoc, render_append,
      render_cons, List.cons_append]
    rw [← List.append_assoc c]
    exact slashBefore_eq hy
  have hp : pLen = k + 3 + (render gs).length := by
    simp only [pLen, k, render_append, render_cons, List.length_append, List.length_cons]
    rw [show dotdot.length = 2 from rfl]
    omega
  have hchars : chars = k + 3 - (c ++ render st.reverse).length := by
    simp only [chars, hstart]
    omega
  have hgpos : 0 < (render gs).length := by
    rw [List.length_pos_iff_ne_nil, ne_eq, render_eq_nil_iff]
    exact hgs
  have hleft : pLen - chars = (c ++ render (st.reverse ++ gs)).length := by
    rw [render_append, ← List.append_assoc, List.length_append]
    omega
  refine ⟨hleft, ?_, ?_⟩
  · intro hroom
    obtain ⟨buf', heq, htext, hl⟩ := memmove_cut (a := (c ++ render st.reverse).length)
      (b := k + 3) (n := pLen - chars) hold (by omega) (by omega) (by omega) (by omega)
    refine ⟨buf', ?_, ?_, hl⟩
    · simp only [round, hstart]
      rw [hchars]
      rw [hchars] at heq
      exact heq
    · have hcut : (c ++ render ((y :: st).reverse ++ dotdot :: gs)).take
            (c ++ render st.reverse).length ++
          (c ++ render ((y :: st).reverse ++ dotdot :: gs)).drop (k + 3) =
            c ++ render (st.reverse ++ gs) := by
        have hdrop : (render (dotdot :: gs)).drop 3 = render gs := rfl
        rw [render_append (y :: st).reverse, ← List.append_assoc, ← List.drop_drop, List.drop_left,
          hdrop, List.reverse_cons, render_append st.reverse, ← List.append_assoc c,
          List.append_assoc (c ++ render st.reverse), List.take_left, render_append,
          List.append_assoc]
      rw [hcut] at htext
      exact htext
  · intro hroom
    simp only [round]
    rw [memmove_error (by omega) (by omega)]
    rfl

/-- The round that takes the text in front of the first slash: the move starts one byte in
front of the array, unless there is nothing to move. -/
theorem removeDotDot_front {gs : List Seg} (hgs : gs ≠ [])
    (hold : HoldsText buf (c ++ render (dotdot :: gs))) :
    let pLen := (c ++ render (dotdot :: gs)).length
    let chars := (((c.length + 3 : ℕ) : ℤ) - slashBefore buf c.length).toNat
    let round := memmove buf (slashBefore buf c.length) (c.length + 3 : ℕ) (pLen - chars) >>=
      fun buf => store buf (pLen - chars) 0
    (gs = [[]] → pLen - chars = 0 ∧ ∃ buf', round = .ok buf' ∧ HoldsText buf' [] ∧
      buf'.length = buf.length) ∧
    (gs ≠ [[]] → round = .error .outOfBounds) := by
  intro pLen chars round
  have hlt := hold.length_lt
  have hstart : slashBefore buf c.length = -1 := by
    obtain ⟨⟨rest, hbuf⟩, -⟩ := hold
    rw [hbuf, List.append_assoc]
    exact slashBefore_none hc _
  have hp : pLen = c.length + 3 + (render gs).length := by
    simp only [pLen, render_cons, List.length_append, List.length_cons]
    rw [show dotdot.length = 2 from rfl]
    omega
  have hchars : chars = c.length + 4 := by
    simp only [chars, hstart]
    omega
  obtain ⟨g, gs, rfl⟩ := List.exists_cons_of_ne_nil hgs
  have hg : (render (g :: gs)).length = g.length + (render gs).length + 1 := by
    rw [render_cons, List.length_cons, List.length_append]
  refine ⟨?_, ?_⟩
  · intro hone
    cases hone
    have h0 : pLen - chars = 0 := by
      rw [hp, hchars]
      simp
    refine ⟨h0, ?_⟩
    simp only [round]
    rw [h0]
    obtain ⟨b, bs, hb⟩ := List.exists_cons_of_ne_nil
      (List.ne_nil_of_length_pos (Nat.zero_lt_of_lt hlt))
    obtain ⟨buf', hstore, htext, hl⟩ := store_end (u := []) (x := b :: bs) (by simp) (by simp)
    refine ⟨buf', ?_, htext, by rw [hl, hb]; rfl⟩
    rw [hb]
    exact hstore
  · intro hmore
    have hpos : pLen - chars ≠ 0 := by
      intro h0
      apply hmore
      obtain rfl : g = [] := List.eq_nil_of_length_eq_zero (by omega)
      obtain rfl : gs = [] := (render_eq_nil_iff gs).mp (List.eq_nil_of_length_eq_zero (by omega))
      rfl
    simp only [round]
    unfold memmove
    rw [if_neg hpos, if_neg (by rw [hstart]; omega)]
    rfl

theorem removeDotDotLoop_done (hs : Slashless segs) (hold : HoldsText buf (c ++ render segs))
    (hnone : firstInner dotdot segs = none) (limit pLen : ℕ) :
    removeDotDotLoop (limit + 1) buf pLen = .ok buf := by
  rw [removeDotDotLoop, hold.loadString, ok_bind, strstr_head hc (by decide) hs, hnone]
  rfl

/-- A round at a `..` with no segment before it. -/
theorem removeDotDotLoop_front {gs : List Seg} (hgs : gs ≠ []) (hs : Slashless (dotdot :: gs))
    (hold : HoldsText buf (c ++ render (dotdot :: gs))) {limit : ℕ}
    (hlimit : (c ++ render (dotdot :: gs)).length < limit + 1) :
    (c = [] ∨ gs = [[]] →
      ∃ buf' text, removeDotDotLoop (limit + 1) buf (c ++ render (dotdot :: gs)).length = .ok buf' ∧
        HoldsText buf' text ∧ buf'.length = buf.length ∧
        (c = [] → text = render (dotdot :: gs))) ∧
    (¬ (c = [] ∨ gs = [[]]) →
      removeDotDotLoop (limit + 1) buf (c ++ render (dotdot :: gs)).length =
        .error .outOfBounds) := by
  have hfirst : firstInner dotdot (dotdot :: gs) = some [] := firstInner_first List.not_mem_nil hgs
  rw [removeDotDotLoop, hold.loadString, ok_bind, strstr_head hc (by decide) hs, hfirst,
    Option.map_some, render_nil, List.append_nil]
  by_cases hnil : c = []
  · subst hnil
    exact ⟨fun _ => ⟨buf, _, rfl, hold, rfl, fun _ => rfl⟩, fun h => absurd (Or.inl rfl) h⟩
  · -- the text in front of the first slash goes
    have hpos : c.length ≠ 0 := fun h => hnil (List.eq_nil_of_length_eq_zero h)
    obtain ⟨hlast, hmore⟩ := removeDotDot_front hc hgs hold
    simp only [hpos, if_false, hnil, false_or]
    constructor
    · intro hone
      obtain ⟨hzero, buf', hround, htext, hl⟩ := hlast hone
      obtain ⟨limit, rfl⟩ : ∃ n, limit = n + 1 := by
        rw [List.length_append] at hlimit
        exact ⟨limit - 1, by omega⟩
      refine ⟨buf', [], ?_, htext, hl, False.elim⟩
      rw [hround, ok_bind, hzero, removeDotDotLoop, htext.loadString]
      rfl
    · intro hone
      rw [hmore hone]
      rfl

/-- A round that removes `y` and the `..` behind it. -/
theorem removeDotDotLoop_up {y : Seg} {st gs : List Seg} (hst : dotdot ∉ y :: st) (hgs : gs ≠ [])
    (hs : Slashless ((y :: st).reverse ++ dotdot :: gs))
    (hold : HoldsText buf (c ++ render ((y :: st).reverse ++ dotdot :: gs))) (limit : ℕ) :
    ((c ++ render st.reverse).length +
        (c ++ render ((y :: st).reverse ++ dotdot :: gs)).length ≤ buf.length →
      ∃ buf', HoldsText buf' (c ++ render (st.reverse ++ gs)) ∧ buf'.length = buf.length ∧
        removeDotDotLoop (limit + 1) buf
            (c ++ render ((y :: st).reverse ++ dotdot :: gs)).length =
          removeDotDotLoop limit buf' (c ++ render (st.reverse ++ gs)).length) ∧
    (¬ (c ++ render st.reverse).length +
        (c ++ render ((y :: st).reverse ++ dotdot :: gs)).length ≤ buf.length →
      removeDotDotLoop (limit + 1) buf (c ++ render ((y :: st).reverse ++ dotdot :: gs)).length =
        .error .outOfBounds) := by
  have hy : slash ∉ y := hs y (by simp)
  have hpos : (c ++ render (y :: st).reverse).length ≠ 0 := by
    simp
  have hrev : dotdot ∉ (y :: st).reverse := by
    rw [List.mem_reverse]
    exact hst
  obtain ⟨hleft, hok, herr⟩ := removeDotDot_round hy hgs hold
  rw [removeDotDotLoop, hold.loadString, ok_bind, strstr_head hc (by decide) hs,
    firstInner_first hrev hgs, Option.map_some]
  simp only [hpos, if_false]
  constructor
  · intro hroom
    obtain ⟨buf', hround, htext, hl⟩ := hok hroom
    refine ⟨buf', htext, hl, ?_⟩
    rw [hround, ok_bind, hleft]
  · intro hroom
    rw [herr (by omega)]
    rfl

/-- The loop of `remove_dot_dot`, with the segments `st` already passed. -/
theorem removeDotDotLoop_eq (st : List Seg) {rest : List Seg} (hst : dotdot ∉ st)
    (hs : Slashless (st.reverse ++ rest)) (hold : HoldsText buf (c ++ render (st.reverse ++ rest)))
    {limit : ℕ} (hlimit : (c ++ render (st.reverse ++ rest)).length < limit) :
    (ClimbsFrom c buf.length st rest →
      ∃ buf' text, removeDotDotLoop limit buf (c ++ render (st.reverse ++ rest)).length = .ok buf' ∧
        HoldsText buf' text ∧ buf'.length = buf.length ∧
        (c = [] → text = render (climb st rest))) ∧
    (¬ ClimbsFrom c buf.length st rest →
      removeDotDotLoop limit buf (c ++ render (st.reverse ++ rest)).length =
        .error .outOfBounds) := by
  obtain ⟨limit, rfl⟩ : ∃ n, limit = n + 1 := ⟨limit - 1, by omega⟩
  have hrev : dotdot ∉ st.reverse := by simpa using hst
  induction rest generalizing st buf limit with
  | nil =>
    rw [List.append_nil] at hs hold ⊢
    refine ⟨fun _ => ⟨buf, _, removeDotDotLoop_done hc hs hold (firstInner_none hrev) _ _, hold,
      rfl, ?_⟩, fun h => absurd trivial h⟩
    rintro rfl
    rfl
  | cons g gs ih =>
    rcases List.eq_nil_or_concat gs with rfl | ⟨gs', last, hgs'⟩
    · have hnone : firstInner dotdot (st.reverse ++ [g]) = none := by
        rw [firstInner_append hrev (by simp)]
        rfl
      refine ⟨fun _ => ⟨buf, _, removeDotDotLoop_done hc hs hold hnone _ _, hold, rfl, ?_⟩,
        fun h => absurd trivial h⟩
      rintro rfl
      rfl
    have hne : gs ≠ [] := by
      rw [hgs']
      simp
    rw [climbsFrom_cons _ _ _ _ hne, climb_cons _ _ hne]
    by_cases hg : g = dotdot
    · subst hg
      simp only [if_true]
      cases st with
      | nil => exact removeDotDotLoop_front hc hne hs hold hlimit
      | cons y st =>
        obtain ⟨hok, herr⟩ := removeDotDotLoop_up hc hst hne hs hold limit
        by_cases hroom : (c ++ render st.reverse).length +
            (c ++ render ((y :: st).reverse ++ dotdot :: gs)).length ≤ buf.length
        · obtain ⟨buf', htext, hl, hround⟩ := hok hroom
          have hs' : Slashless (st.reverse ++ gs) := by
            intro x hx
            refine hs x ?_
            rcases List.mem_append.mp hx with h | h
            · simp [List.mem_reverse.mp h]
            · simp [h]
          simp only [List.mem_cons, not_or] at hst
          have hshort : (c ++ render (st.reverse ++ gs)).length <
              (c ++ render ((y :: st).reverse ++ dotdot :: gs)).length := by
            simp only [List.reverse_cons, render_append, render_cons, List.length_append,
              List.length_cons]
            omega
          obtain ⟨limit, rfl⟩ : ∃ n, limit = n + 1 := ⟨limit - 1, by omega⟩
          have ih' := ih st hst.2 hs' htext limit (by omega) (by simpa using hst.2)
          rw [hl] at ih'
          simp only [hroom, true_and]
          rw [hround]
          exact ih'
        · exact ⟨fun h => absurd h.1 hroom, fun _ => herr hroom⟩
    · simp only [hg, if_false]
      have heq : st.reverse ++ g :: gs = (g :: st).reverse ++ gs := by simp
      rw [heq] at hs hold hlimit ⊢
      have hst' : dotdot ∉ g :: st := by
        simp only [List.mem_cons, not_or]
        exact ⟨Ne.symm hg, hst⟩
      exact ih (g :: st) hst' hs hold limit hlimit (by rw [List.mem_reverse]; exact hst')

end Loops

def joined (cwd p : List UInt8) : List UInt8 :=
  if p.head? ≠ some slash then cwd ++ slash :: p else p

/-- A string the application can pass, with an absolute working directory, that fits. -/
structure Passable (cwd p : List UInt8) : Prop where
  cwd_abs : cwd.head? = some slash
  text : 0 ∉ cwd ∧ 0 ∉ p
  fits : (joined cwd p).length < PATH_MAX

def pathSegs (cwd p : List UInt8) : List Seg := segments (joined cwd p).tail

variable {cwd p : List UInt8}

theorem joined_head (h : Passable cwd p) : (joined cwd p).head? = some slash := by
  unfold joined
  split_ifs with hp
  · obtain ⟨c, cs, hc⟩ := List.exists_cons_of_ne_nil (l := cwd) (by
      intro h0
      have habs := h.cwd_abs
      rw [h0] at habs
      cases habs)
    have habs := h.cwd_abs
    rw [hc] at habs ⊢
    exact habs
  · exact not_not.mp hp

theorem render_pathSegs (h : Passable cwd p) : render (pathSegs cwd p) = joined cwd p := by
  have hhead := joined_head h
  unfold pathSegs
  rw [render_segments]
  cases hj : joined cwd p with
  | nil =>
    rw [hj] at hhead
    cases hhead
  | cons c cs =>
    rw [hj] at hhead
    cases hhead
    rfl

theorem roomFrom_eq {n : ℕ} (hn : n ≤ PATH_MAX) : roomFrom n = PATH_MAX - n := by
  unfold roomFrom asU64 PATH_MAX at *
  omega

theorem zeros_holds : HoldsText (List.replicate PATH_MAX 0) [] :=
  ⟨⟨List.replicate (PATH_MAX - 1) 0, rfl⟩, by simp⟩

theorem joinPath_eq (h : 0 ∉ cwd ∧ 0 ∉ p) (hfits : (joined cwd p).length < PATH_MAX) :
    ∃ buf, joinPath cwd p = .ok buf ∧ HoldsText buf (joined cwd p) ∧ buf.length = PATH_MAX := by
  unfold joinPath
  unfold joined at *
  split_ifs at * with hp
  · simp only [List.length_append, List.length_cons] at hfits
    obtain ⟨b1, h1, t1, l1⟩ := strncpy_holds zeros_holds h.1 (by simp; omega)
    rw [List.length_replicate] at l1
    obtain ⟨b2, h2, t2, l2⟩ := strncpy_holds (t := [slash]) t1 (by decide) (by simp; omega)
    obtain ⟨b3, h3, t3, l3⟩ := strncpy_holds (t := p) t2 h.2 (by simp; omega)
    simp only [List.length_nil, Nat.sub_zero, List.length_replicate, List.nil_append, l1, l2,
      List.length_append, List.length_singleton] at h1 h2 h3 t3
    refine ⟨b3, ?_, ?_, by omega⟩
    · dsimp only
      rw [h1, ok_bind, roomFrom_eq (by omega), h2, ok_bind, roomFrom_eq (by omega), h3]
    · simpa using t3
  · obtain ⟨b1, h1, t1, l1⟩ := strncpy_holds zeros_holds h.2 (by simp; omega)
    simp only [List.length_nil, Nat.sub_zero, List.length_replicate] at h1
    exact ⟨b1, h1, by simpa using t1, by simpa using l1⟩

/-- The moves of `resolve_path` stay inside its array: a text of full length has no inner
`.`, and every cancelled segment starts early enough for the whole text to be moved. -/
def InBounds (segs : List Seg) : Prop :=
  (dot ∈ segs.dropLast → (render segs).length + 2 ≤ PATH_MAX) ∧
    ClimbsWithin PATH_MAX [] (dropInner [] (dropInner dot segs))

def resolved (segs : List Seg) : List Seg := climb [] (dropInner [] (dropInner dot segs))

def InBoundsFrom (c : List UInt8) (segs : List Seg) : Prop :=
  (dot ∈ segs.dropLast → (c ++ render segs).length + 2 ≤ PATH_MAX) ∧
    ClimbsFrom c PATH_MAX [] (dropInner [] (dropInner dot segs))

theorem inBoundsFrom_nil : InBoundsFrom [] segs ↔ InBounds segs := by
  unfold InBoundsFrom InBounds
  rw [climbsFrom_nil, List.nil_append]

instance (c : List UInt8) (segs : List Seg) : Decidable (InBoundsFrom c segs) := by
  unfold InBoundsFrom
  infer_instance

/-- `resolve_path` in full: it computes the resolved segments, or it leaves its array. -/
theorem resolvePath_from (hp : p ≠ []) (h : 0 ∉ cwd ∧ 0 ∉ p) (hfits : (joined cwd p).length < PATH_MAX)
    (hc : slash ∉ c) (hs : Slashless segs) (hj : joined cwd p = c ++ render segs) :
    (InBoundsFrom c segs → ∃ r, resolvePath cwd p = .ok (some r) ∧ 0 ∉ r ∧ r.length < PATH_MAX ∧
      (c = [] → r = render (resolved segs))) ∧
    (¬ InBoundsFrom c segs → resolvePath cwd p = .error .outOfBounds) := by
  obtain ⟨b, hjoin, htext, hlen⟩ := joinPath_eq h hfits
  rw [hj] at htext hfits
  unfold resolvePath removePathString removeDotDot
  rw [if_neg hp, hjoin, ok_bind, htext.loadString, ok_bind]
  dsimp only
  by_cases hdot : dot ∈ segs.dropLast ∧ PATH_MAX < (c ++ render segs).length + 2
  · have hout : ¬ InBoundsFrom c segs := fun hb => by
      have := hb.1 hdot.1
      omega
    refine ⟨fun hb => absurd hb hout, fun _ => ?_⟩
    rw [removePathStringLoop_error hc (by decide) hs htext
      (fun hn => firstInner_eq_none_iff.mp hn hdot.1) (by rw [hlen]; exact hdot.2)]
    rfl
  have hroom : firstInner dot segs = none ∨
      (c ++ render segs).length + (dot.length + 1) ≤ b.length := by
    rw [firstInner_eq_none_iff, hlen]
    by_cases hm : dot ∈ segs.dropLast
    · right
      have : ¬ PATH_MAX < (c ++ render segs).length + 2 := fun hlt => hdot ⟨hm, hlt⟩
      rw [show dot.length = 1 from rfl]
      omega
    · exact Or.inl hm
  obtain ⟨b1, hloop1, htext1, hlen1⟩ := removePathStringLoop_eq hc (by decide) hs htext hroom
    (Nat.lt_succ_self _)
  have hs1 := hs.dropInner dot
  have hle1 : (c ++ render (dropInner dot segs)).length ≤ (c ++ render segs).length := by
    rw [List.length_append, List.length_append]
    exact Nat.add_le_add_left (render_dropInner_length dot segs) _
  obtain ⟨b2, hloop2, htext2, hlen2⟩ := removePathStringLoop_eq hc (x := []) (by simp) hs1 htext1
    (Or.inr (by rw [hlen1, hlen, List.length_nil]; omega)) (Nat.lt_succ_self _)
  have hs2 := hs1.dropInner []
  have hdd := removeDotDotLoop_eq hc [] (by simp) (by simpa using hs2) (by simpa using htext2)
    (Nat.lt_succ_self _)
  rw [hlen2, hlen1, hlen] at hdd
  simp only [List.reverse_nil, List.nil_append] at hdd
  rw [hloop1, ok_bind, htext1.loadString, ok_bind, hloop2, ok_bind, htext2.loadString, ok_bind]
  have hin : InBoundsFrom c segs ↔
      ClimbsFrom c PATH_MAX [] (dropInner [] (dropInner dot segs)) := by
    refine and_iff_right fun hm => ?_
    by_contra hlt
    exact hdot ⟨hm, not_le.mp hlt⟩
  rw [hin]
  constructor
  · intro hcl
    obtain ⟨b3, text, hloop3, htext3, hlen3, hres⟩ := hdd.1 hcl
    refine ⟨text, ?_, htext3.2, hlen3 ▸ htext3.length_lt, hres⟩
    rw [hloop3, ok_bind, htext3.loadString]
    rfl
  · intro hcl
    rw [hdd.2 hcl]
    rfl

theorem resolvePath_eq (h : Passable cwd p) (hp : p ≠ []) :
    (InBounds (pathSegs cwd p) →
      resolvePath cwd p = .ok (some (render (resolved (pathSegs cwd p))))) ∧
    (¬ InBounds (pathSegs cwd p) → resolvePath cwd p = .error .outOfBounds) := by
  obtain ⟨hin, hout⟩ := resolvePath_from (c := []) hp h.text h.fits (by simp)
    (segments_slashless _) (render_pathSegs h).symm
  rw [inBoundsFrom_nil] at hin hout
  refine ⟨fun hb => ?_, hout⟩
  obtain ⟨r, hr, -, -, hres⟩ := hin hb
  rw [hr, hres rfl]
  rfl

/-- A joined text that does not fit leaves no terminator in the array, or runs behind it. -/
theorem joinPath_long (htext : 0 ∉ cwd ∧ 0 ∉ p) (hlong : PATH_MAX ≤ (joined cwd p).length) :
    joinPath cwd p = .error .outOfBounds ∨ ∃ buf, joinPath cwd p = .ok buf ∧ 0 ∉ buf := by
  unfold joinPath
  unfold joined at hlong
  split_ifs at * with hp
  · dsimp only
    simp only [List.length_append, List.length_cons] at hlong
    by_cases hcwd : cwd.length < PATH_MAX
    · obtain ⟨b1, h1, t1, l1⟩ := strncpy_holds zeros_holds htext.1 (by simp; omega)
      simp only [List.length_nil, Nat.sub_zero, List.length_replicate, List.nil_append] at h1 t1 l1
      rw [h1, ok_bind, roomFrom_eq (by omega)]
      by_cases hfit : cwd.length + 1 < PATH_MAX
      · obtain ⟨b2, h2, t2, l2⟩ := strncpy_holds (t := [slash]) t1 (by decide) (by simp; omega)
        obtain ⟨b3, h3, t3, -⟩ := strncpy_full (t := p) t2 htext.2 (by simp; omega)
        simp only [List.length_append, List.length_singleton, l2, l1] at h2 h3
        rw [h2, ok_bind, roomFrom_eq (by omega), h3]
        exact Or.inr ⟨b3, rfl, t3⟩
      · obtain ⟨b2, h2, t2, -⟩ := strncpy_full (t := [slash]) t1 (by decide) (by simp; omega)
        rw [l1] at h2
        rw [h2, ok_bind, roomFrom_eq (by omega), show PATH_MAX - (cwd.length + 1) = 0 by omega]
        exact Or.inr ⟨b2, rfl, t2⟩
    · -- the second or the third copy starts behind the array
      obtain ⟨b1, h1, -, l1⟩ := strncpy_full zeros_holds htext.1 (by simp; omega)
      simp only [List.length_nil, Nat.sub_zero, List.length_replicate] at h1 l1
      rw [h1, ok_bind, strncpy_behind (by omega)]
      by_cases hroom : roomFrom cwd.length = 0
      · have hroom' : roomFrom (cwd.length + 1) ≠ 0 := by
          unfold roomFrom asU64 at *
          omega
        rw [if_pos hroom, ok_bind, strncpy_behind (by omega), if_neg hroom']
        exact Or.inl rfl
      · rw [if_neg hroom]
        exact Or.inl rfl
  · obtain ⟨b1, h1, t1, -⟩ := strncpy_full zeros_holds htext.2 (by simp; omega)
    simp only [List.length_nil, Nat.sub_zero, List.length_replicate] at h1
    exact Or.inr ⟨b1, h1, t1⟩

theorem resolvePath_long (hp : p ≠ []) (htext : 0 ∉ cwd ∧ 0 ∉ p)
    (hlong : PATH_MAX ≤ (joined cwd p).length) : resolvePath cwd p = .error .outOfBounds := by
  unfold resolvePath removePathString
  rw [if_neg hp]
  rcases joinPath_long htext hlong with herr | ⟨buf, hbuf, h0⟩
  · rw [herr]
    rfl
  · have hload : loadString buf 0 = .error .outOfBounds := by
      unfold loadString
      rw [List.drop_zero, if_neg h0]
    rw [hbuf, ok_bind, hload]
    rfl

end Defuse
