import Defuse.Lib.Strings
import Mathlib.Data.List.Infix

/-! Slash-separated paths: an absolute path is the text of a list of segments, and its
lexical meaning is what is left after reading the segments from left to right. -/

namespace CSem

def slash : UInt8 := 0x2f

/-- A segment of a path, the text between two slashes. -/
abbrev Seg := List UInt8

def dot : Seg := [0x2e]
def dotdot : Seg := [0x2e, 0x2e]

/-- The text of a list of segments, each with the slash before it. -/
def render (segs : List Seg) : List UInt8 := segs.flatMap (slash :: ·)

/-- The segments of a text, which follows a slash. -/
def segments : List UInt8 → List Seg
  | [] => [[]]
  | c :: cs =>
    if c = slash then [] :: segments cs
    else
      match segments cs with
      | [] => [[c]]
      | g :: gs => (c :: g) :: gs

/-- Segments of a text contain no slash. -/
def Slashless (segs : List Seg) : Prop := ∀ g ∈ segs, slash ∉ g

/-- A segment that names an entry of a directory. -/
def IsName (g : Seg) : Prop := g ≠ [] ∧ g ≠ dot ∧ g ≠ dotdot ∧ slash ∉ g

instance (g : Seg) : Decidable (IsName g) := by
  unfold IsName
  infer_instance

/-- Reading one segment with the names read so far, the last one first; at the root `..`
stays there. -/
def enter (st : List Seg) (g : Seg) : List Seg :=
  if g = [] ∨ g = dot then st else if g = dotdot then st.tail else g :: st

theorem enter_skip {g : Seg} (hg : g = [] ∨ g = dot) (st : List Seg) : enter st g = st := if_pos hg

@[simp] theorem enter_dotdot (st : List Seg) : enter st dotdot = st.tail := rfl

theorem enter_name {g : Seg} (hg : IsName g) (st : List Seg) : enter st g = g :: st := by
  obtain ⟨h1, h2, h3, -⟩ := hg
  simp [enter, h1, h2, h3]

/-- The lexical normal form. -/
def lexical (segs : List Seg) : List Seg := (segs.foldl enter []).reverse

@[simp] theorem render_nil : render [] = [] := rfl

@[simp] theorem render_cons (g : Seg) (gs : List Seg) :
    render (g :: gs) = slash :: (g ++ render gs) := rfl

@[simp] theorem render_append (gs hs : List Seg) : render (gs ++ hs) = render gs ++ render hs := by
  simp [render]

theorem render_eq_nil_iff (gs : List Seg) : render gs = [] ↔ gs = [] := by
  cases gs with
  | nil => simp
  | cons g gs => simp

theorem segments_ne_nil (s : List UInt8) : segments s ≠ [] := by
  cases s with
  | nil => simp [segments]
  | cons c cs =>
    simp only [segments]
    split_ifs
    · simp
    · split <;> simp

theorem render_segments (s : List UInt8) : render (segments s) = slash :: s := by
  induction s with
  | nil => rfl
  | cons c cs ih =>
    simp only [segments]
    split_ifs with hc
    · simp [ih, hc]
    · cases hs : segments cs with
      | nil => exact absurd hs (segments_ne_nil cs)
      | cons g gs =>
        rw [hs, render_cons] at ih
        simp only [render_cons, List.cons_append]
        rw [(List.cons.inj ih).2]

theorem segments_slashless (s : List UInt8) : Slashless (segments s) := by
  induction s with
  | nil => simp [Slashless, segments]
  | cons c cs ih =>
    simp only [segments]
    split_ifs with hc
    · intro g hg
      rcases List.mem_cons.mp hg with rfl | hg
      · simp
      · exact ih g hg
    · cases hs : segments cs with
      | nil => exact absurd hs (segments_ne_nil cs)
      | cons g gs =>
        rw [hs] at ih
        intro x hx
        rcases List.mem_cons.mp hx with rfl | hx
        · have := ih g (by simp)
          simp only [List.mem_cons, not_or]
          exact ⟨Ne.symm hc, this⟩
        · exact ih x (by simp [hx])

theorem segments_append_slash {g : Seg} (h : slash ∉ g) (t : List UInt8) :
    segments (g ++ slash :: t) = g :: segments t := by
  induction g with
  | nil => simp [segments]
  | cons c cs ih =>
    simp only [List.mem_cons, not_or] at h
    simp only [List.cons_append, segments, if_neg (Ne.symm h.1), ih h.2]

theorem segments_of_slashless {g : Seg} (h : slash ∉ g) : segments g = [g] := by
  induction g with
  | nil => rfl
  | cons c cs ih =>
    simp only [List.mem_cons, not_or] at h
    simp only [segments, if_neg (Ne.symm h.1), ih h.2]

theorem segments_append (s t : List UInt8) :
    segments (s ++ slash :: t) = segments s ++ segments t := by
  induction s with
  | nil => simp [segments]
  | cons c cs ih =>
    rw [List.cons_append, segments, segments, ih]
    split_ifs
    · rfl
    · cases hs : segments cs with
      | nil => exact absurd hs (segments_ne_nil cs)
      | cons g gs => rfl

theorem segments_render {g : Seg} {gs : List Seg} (h : Slashless (g :: gs)) :
    segments (g ++ render gs) = g :: gs := by
  induction gs generalizing g with
  | nil =>
    rw [render_nil, List.append_nil]
    exact segments_of_slashless (h g (by simp))
  | cons g' gs ih =>
    rw [render_cons, segments_append_slash (h g (by simp)), ih]
    intro x hx
    exact h x (by simp [hx])

/-! Searching for a segment: a text of the form `/x/` occurs in a path exactly where a
segment other than the last one is `x`. -/

/-- The segments before the first `x` that is not the last segment. -/
def firstInner (x : Seg) : List Seg → Option (List Seg)
  | [] => none
  | [_] => none
  | g :: gs => if g = x then some [] else (firstInner x gs).map (g :: ·)

/-- All segments but the `x` that are not last. -/
def dropInner (x : Seg) : List Seg → List Seg
  | [] => []
  | [g] => [g]
  | g :: gs => if g = x then dropInner x gs else g :: dropInner x gs

/-- The text searched for. -/
def inner (x : Seg) : List UInt8 := slash :: (x ++ [slash])

theorem strstr_skip {g : Seg} (hg : slash ∉ g) (y rest : List UInt8) :
    strstr (g ++ rest) (slash :: y) = (strstr rest (slash :: y)).map (· + g.length) := by
  induction g with
  | nil => simp
  | cons c cs ih =>
    simp only [List.mem_cons, not_or] at hg
    rw [List.cons_append, strstr, if_neg, ih hg.2, Option.map_map]
    · rfl
    · intro hp
      exact hg.1 (List.cons_prefix_cons.mp hp).1

/-- A needle that ends in its only slash fits the text up to the first slash. -/
theorem inner_prefix_iff {x g : Seg} (hx : slash ∉ x) (hg : slash ∉ g) (gs : List Seg) :
    inner x <+: render (g :: gs) ↔ g = x ∧ gs ≠ [] := by
  unfold inner
  rw [render_cons, List.cons_prefix_cons, and_iff_right rfl]
  induction x generalizing g with
  | nil =>
    cases g with
    | nil =>
      cases gs with
      | nil => simp
      | cons g' gs => simp
    | cons c cs =>
      simp only [List.mem_cons, not_or] at hg
      simp only [List.nil_append, List.cons_append, List.cons_prefix_cons, reduceCtorEq,
        false_and, iff_false, not_and]
      intro h
      exact absurd h hg.1
  | cons a x ih =>
    simp only [List.mem_cons, not_or] at hx
    cases g with
    | nil =>
      cases gs with
      | nil => simp
      | cons g' gs =>
        simp only [List.cons_append, List.nil_append, render_cons, List.cons_prefix_cons,
          reduceCtorEq, false_and, iff_false, not_and]
        intro h
        exact absurd h.symm hx.1
    | cons c cs =>
      simp only [List.mem_cons, not_or] at hg
      rw [List.cons_append, List.cons_append, List.cons_prefix_cons, ih hx.2 hg.2]
      constructor
      · rintro ⟨rfl, rfl, h⟩
        exact ⟨rfl, h⟩
      · rintro ⟨h, hgs⟩
        obtain ⟨rfl, rfl⟩ := List.cons.inj h
        exact ⟨rfl, rfl, hgs⟩

theorem strstr_render {x : Seg} (hx : slash ∉ x) (segs : List Seg) (hs : Slashless segs) :
    strstr (render segs) (inner x) = (firstInner x segs).map fun pre => (render pre).length := by
  induction segs with
  | nil => simp [strstr, firstInner, inner]
  | cons g gs ih =>
    have hg : slash ∉ g := hs g (by simp)
    have ih' := ih fun h hh => hs h (by simp [hh])
    have hpre := inner_prefix_iff hx hg gs
    have hstep : strstr (render (g :: gs)) (inner x) =
        if g = x ∧ gs ≠ [] then some 0
        else ((firstInner x gs).map fun pre => (render pre).length).map (· + (g.length + 1)) := by
      rw [render_cons, strstr, ← render_cons]
      by_cases h : g = x ∧ gs ≠ []
      · rw [if_pos h, if_pos (hpre.mpr h)]
      · rw [if_neg h, if_neg (mt hpre.mp h)]
        unfold inner at ih' ⊢
        rw [strstr_skip hg, ih', Option.map_map]
        rfl
    rw [hstep]
    cases gs with
    | nil => simp [firstInner]
    | cons g' gs =>
      simp only [firstInner, ne_eq, reduceCtorEq, not_false_eq_true, and_true]
      split_ifs with hgx
      · rfl
      · simp only [Option.map_map]
        congr 1
        funext pre
        simp only [Function.comp_apply, render_cons, List.length_cons, List.length_append]
        omega

/-- In front of the first slash there is nothing to find. -/
theorem strstr_head {c : List UInt8} (hc : slash ∉ c) {x : Seg} (hx : slash ∉ x) {segs : List Seg}
    (hs : Slashless segs) : strstr (c ++ render segs) (inner x) =
      (firstInner x segs).map fun pre => (c ++ render pre).length := by
  have hskip := strstr_skip hc (x ++ [slash]) (render segs)
  have hfind := strstr_render hx segs hs
  unfold inner at *
  rw [hskip, hfind, Option.map_map]
  congr 1
  funext pre
  rw [Function.comp_apply, List.length_append]
  omega

theorem firstInner_some {x : Seg} {segs pre : List Seg} (h : firstInner x segs = some pre) :
    ∃ post, segs = pre ++ x :: post ∧ post ≠ [] ∧ x ∉ pre := by
  induction segs generalizing pre with
  | nil => cases h
  | cons g gs ih =>
    cases gs with
    | nil => cases h
    | cons g' gs =>
      simp only [firstInner] at h
      split_ifs at h with hg
      · cases h
        exact ⟨g' :: gs, by rw [hg]; rfl, by simp, by simp⟩
      · obtain ⟨pre', hpre, rfl⟩ := Option.map_eq_some_iff.mp h
        obtain ⟨post, heq, hne, hx⟩ := ih hpre
        refine ⟨post, by rw [heq]; rfl, hne, ?_⟩
        simp only [List.mem_cons, not_or]
        exact ⟨Ne.symm hg, hx⟩

theorem firstInner_append {x : Seg} {pre rest : List Seg} (hx : x ∉ pre) (hne : rest ≠ []) :
    firstInner x (pre ++ rest) = (firstInner x rest).map (pre ++ ·) := by
  induction pre with
  | nil => simp
  | cons g gs ih =>
    simp only [List.mem_cons, not_or] at hx
    obtain ⟨a, as, ha⟩ := List.exists_cons_of_ne_nil (l := gs ++ rest) (by simp [hne])
    have ih' := ih hx.2
    rw [ha] at ih'
    rw [List.cons_append, ha, firstInner, if_neg (Ne.symm hx.1), ih', Option.map_map]
    · rfl
    · simp

theorem firstInner_first {x : Seg} {pre post : List Seg} (hx : x ∉ pre) (hne : post ≠ []) :
    firstInner x (pre ++ x :: post) = some pre := by
  obtain ⟨a, as, rfl⟩ := List.exists_cons_of_ne_nil hne
  rw [firstInner_append hx (by simp)]
  simp [firstInner]

theorem firstInner_none {x : Seg} {segs : List Seg} (hx : x ∉ segs) : firstInner x segs = none := by
  cases h : firstInner x segs with
  | none => rfl
  | some pre =>
    obtain ⟨post, rfl, -, -⟩ := firstInner_some h
    exact absurd (by simp) hx

theorem firstInner_eq_none_iff {x : Seg} {segs : List Seg} :
    firstInner x segs = none ↔ x ∉ segs.dropLast := by
  induction segs with
  | nil => simp [firstInner]
  | cons g gs ih =>
    cases gs with
    | nil => simp [firstInner]
    | cons g' gs =>
      rw [firstInner, List.dropLast_cons_of_ne_nil (by simp), List.mem_cons, not_or]
      · split_ifs with hg
        · simp [hg]
        · rw [Option.map_eq_none_iff, ih, and_iff_right (Ne.symm hg)]
      · simp

theorem inner_infix_iff {x : Seg} (hx : slash ∉ x) {segs : List Seg} (hs : Slashless segs) :
    inner x <:+: render segs ↔ x ∈ segs.dropLast := by
  rw [← not_iff_not, ← strstr_eq_none_iff, strstr_render hx segs hs, Option.map_eq_none_iff,
    firstInner_eq_none_iff]

theorem dropInner_cons (x g : Seg) {gs : List Seg} (h : gs ≠ []) :
    dropInner x (g :: gs) = if g = x then dropInner x gs else g :: dropInner x gs := by
  obtain ⟨g', gs, rfl⟩ := List.exists_cons_of_ne_nil h
  rfl

theorem dropInner_of_none {x : Seg} {segs : List Seg} (h : firstInner x segs = none) :
    dropInner x segs = segs := by
  induction segs with
  | nil => rfl
  | cons g gs ih =>
    cases gs with
    | nil => rfl
    | cons g' gs =>
      simp only [firstInner] at h
      split_ifs at h with hg
      rw [dropInner_cons x g (by simp), if_neg hg, ih (Option.map_eq_none_iff.mp h)]

theorem dropInner_cut {x : Seg} {pre post : List Seg} (hx : x ∉ pre) (hne : post ≠ []) :
    dropInner x (pre ++ x :: post) = dropInner x (pre ++ post) := by
  induction pre with
  | nil => rw [List.nil_append, dropInner_cons x x hne, if_pos rfl, List.nil_append]
  | cons g gs ih =>
    simp only [List.mem_cons, not_or] at hx
    rw [List.cons_append, List.cons_append, dropInner_cons x g (by simp),
      dropInner_cons x g (by simp [hne]), ih hx.2]

theorem dropInner_concat (x : Seg) (gs : List Seg) (last : Seg) :
    dropInner x (gs ++ [last]) = gs.filter (· ≠ x) ++ [last] := by
  induction gs with
  | nil => rfl
  | cons g gs ih =>
    rw [List.cons_append, dropInner_cons x g (by simp), ih]
    by_cases hg : g = x
    · simp [hg]
    · simp [hg]

theorem Slashless.dropInner {segs : List Seg} (h : Slashless segs) (x : Seg) :
    Slashless (dropInner x segs) := by
  rcases List.eq_nil_or_concat segs with rfl | ⟨gs, last, rfl⟩
  · exact h
  rw [List.concat_eq_append] at h ⊢
  rw [dropInner_concat]
  intro g hg
  refine h g ?_
  rcases List.mem_append.mp hg with hm | hm
  · exact List.mem_append_left _ (List.mem_of_mem_filter hm)
  · exact List.mem_append_right _ hm

theorem render_dropInner_length (x : Seg) (segs : List Seg) :
    (render (dropInner x segs)).length ≤ (render segs).length := by
  rcases List.eq_nil_or_concat segs with rfl | ⟨gs, last, rfl⟩
  · rfl
  rw [List.concat_eq_append, dropInner_concat, render_append, render_append, List.length_append,
    List.length_append, Nat.add_le_add_iff_right]
  induction gs with
  | nil => rfl
  | cons g gs ih =>
    by_cases hg : g = x
    · rw [List.filter_cons_of_neg (by simpa using hg), render_cons, List.length_cons,
        List.length_append]
      omega
    · rw [List.filter_cons_of_pos (by simpa using hg), render_cons, render_cons, List.length_cons,
        List.length_cons, List.length_append, List.length_append]
      omega

/-! Cancelling `..` in place: the first inner `..` goes together with the segment before
it, until there is none or it stands at the front. -/

/-- What is left when the segments in `st` (the last one first) have been passed. -/
def climb : List Seg → List Seg → List Seg
  | st, [] => st.reverse
  | st, [g] => st.reverse ++ [g]
  | st, g :: gs =>
    if g = dotdot then
      match st with
      | [] => g :: gs
      | _ :: st => climb st gs
    else climb (g :: st) gs

/-- Every cancellation keeps the sum of the text before the cancelled segment and the
whole text at that moment within `cap`. -/
def ClimbsWithin (cap : ℕ) : List Seg → List Seg → Prop
  | _, [] => True
  | _, [_] => True
  | st, g :: gs =>
    if g = dotdot then
      match st with
      | [] => True
      | y :: st =>
        (render st.reverse).length + (render ((y :: st).reverse ++ g :: gs)).length ≤ cap ∧
          ClimbsWithin cap st gs
    else ClimbsWithin cap (g :: st) gs

/-- The same behind a text `c` without a slash: a `..` with no segment before it then takes
`c` with it, and the byte in front of the text as well when there is anything to move. -/
def ClimbsFrom (c : List UInt8) (cap : ℕ) : List Seg → List Seg → Prop
  | _, [] => True
  | _, [_] => True
  | st, g :: gs =>
    if g = dotdot then
      match st with
      | [] => c = [] ∨ gs = [[]]
      | y :: st =>
        (c ++ render st.reverse).length + (c ++ render ((y :: st).reverse ++ g :: gs)).length ≤ cap ∧
          ClimbsFrom c cap st gs
    else ClimbsFrom c cap (g :: st) gs

/-- The names reached by reading `segs` from `st`, unless they lead above the root. -/
def names : List Seg → List Seg → Option (List Seg)
  | st, [] => some st
  | st, g :: gs =>
    if g = [] ∨ g = dot then names st gs
    else if g = dotdot then
      match st with
      | [] => none
      | _ :: st => names st gs
    else names (g :: st) gs

theorem names_cons (st : List Seg) (g : Seg) (gs : List Seg) :
    names st (g :: gs) = if g = [] ∨ g = dot then names st gs
      else if g = dotdot then
        match st with
        | [] => none
        | _ :: st => names st gs
      else names (g :: st) gs := by
  cases st <;> rfl

theorem climb_cons (st : List Seg) (g : Seg) {gs : List Seg} (h : gs ≠ []) :
    climb st (g :: gs) = if g = dotdot then
      match st with
      | [] => g :: gs
      | _ :: st => climb st gs
    else climb (g :: st) gs := by
  obtain ⟨g', gs, rfl⟩ := List.exists_cons_of_ne_nil h
  rfl

theorem climbsFrom_cons (c : List UInt8) (cap : ℕ) (st : List Seg) (g : Seg) {gs : List Seg}
    (h : gs ≠ []) :
    ClimbsFrom c cap st (g :: gs) ↔ if g = dotdot then
      match st with
      | [] => c = [] ∨ gs = [[]]
      | y :: st =>
        (c ++ render st.reverse).length + (c ++ render ((y :: st).reverse ++ g :: gs)).length ≤ cap ∧
          ClimbsFrom c cap st gs
    else ClimbsFrom c cap (g :: st) gs := by
  obtain ⟨g', gs, rfl⟩ := List.exists_cons_of_ne_nil h
  rfl

theorem climbsFrom_nil (cap : ℕ) (st segs : List Seg) :
    ClimbsFrom [] cap st segs ↔ ClimbsWithin cap st segs := by
  induction segs generalizing st with
  | nil => rfl
  | cons g gs ih =>
    cases gs with
    | nil => rfl
    | cons g' gs =>
      unfold ClimbsFrom ClimbsWithin
      split_ifs
      · cases st with
        | nil => simp
        | cons y st => simp only [List.nil_append, ih]
      · exact ih _

instance ClimbsFrom.decide (c : List UInt8) (cap : ℕ) :
    ∀ st segs : List Seg, Decidable (ClimbsFrom c cap st segs)
  | _, [] => .isTrue trivial
  | _, [_] => .isTrue trivial
  | [], g :: g' :: gs =>
    have := ClimbsFrom.decide c cap [g] (g' :: gs)
    decidable_of_iff (if g = dotdot then c = [] ∨ g' :: gs = [[]] else ClimbsFrom c cap [g] (g' :: gs))
      (climbsFrom_cons c cap [] g (List.cons_ne_nil g' gs)).symm
  | y :: st, g :: g' :: gs =>
    have := ClimbsFrom.decide c cap st (g' :: gs)
    have := ClimbsFrom.decide c cap (g :: y :: st) (g' :: gs)
    decidable_of_iff (if g = dotdot then
        (c ++ render st.reverse).length +
          (c ++ render ((y :: st).reverse ++ g :: g' :: gs)).length ≤ cap ∧
          ClimbsFrom c cap st (g' :: gs)
      else ClimbsFrom c cap (g :: y :: st) (g' :: gs))
      (climbsFrom_cons c cap (y :: st) g (List.cons_ne_nil g' gs)).symm

/-- Without an inner `..` nothing is cancelled. -/
theorem climb_of_none (st : List Seg) {segs : List Seg} (h : dotdot ∉ segs.dropLast) :
    climb st segs = st.reverse ++ segs := by
  induction segs generalizing st with
  | nil => simp [climb]
  | cons g gs ih =>
    cases gs with
    | nil => rfl
    | cons g' gs =>
      rw [List.dropLast_cons_of_ne_nil (by simp), List.mem_cons, not_or] at h
      rw [climb_cons st g (by simp), if_neg (Ne.symm h.1), ih (g :: st) h.2]
      simp

theorem climbsWithin_of_none (cap : ℕ) (st : List Seg) {segs : List Seg}
    (h : dotdot ∉ segs.dropLast) : ClimbsWithin cap st segs := by
  induction segs generalizing st with
  | nil => trivial
  | cons g gs ih =>
    cases gs with
    | nil => trivial
    | cons g' gs =>
      rw [List.dropLast_cons_of_ne_nil (by simp), List.mem_cons, not_or] at h
      unfold ClimbsWithin
      rw [if_neg (Ne.symm h.1)]
      exact ih (g :: st) h.2

/-- The last segment stays, behind some of the others. -/
theorem climb_subset (st V : List Seg) (last : Seg) :
    ∃ W, climb st (V ++ [last]) = W ++ [last] ∧ ∀ g ∈ W, g ∈ st ∨ g ∈ V := by
  induction V generalizing st with
  | nil => exact ⟨st.reverse, rfl, fun g hg => Or.inl (List.mem_reverse.mp hg)⟩
  | cons g gs ih =>
    rw [List.cons_append, climb_cons st g (by simp)]
    split_ifs with hg
    · cases st with
      | nil => exact ⟨g :: gs, rfl, fun x hx => Or.inr hx⟩
      | cons y st =>
        obtain ⟨W, hW, hsub⟩ := ih st
        refine ⟨W, hW, fun x hx => (hsub x hx).imp (fun h => ?_) fun h => ?_⟩
        · exact List.mem_cons_of_mem y h
        · exact List.mem_cons_of_mem g h
    · obtain ⟨W, hW, hsub⟩ := ih (g :: st)
      refine ⟨W, hW, fun x hx => ?_⟩
      rcases hsub x hx with h | h
      · rcases List.mem_cons.mp h with rfl | h
        · exact Or.inr List.mem_cons_self
        · exact Or.inl h
      · exact Or.inr (List.mem_cons_of_mem g h)

/-- Reading skips empty segments and dots. -/
theorem names_filter (st gs : List Seg) :
    names st ((gs.filter (· ≠ dot)).filter (· ≠ [])) = names st gs := by
  induction gs generalizing st with
  | nil => rfl
  | cons g gs ih =>
    by_cases hg : g = [] ∨ g = dot
    · rw [names_cons, if_pos hg, ← ih]
      rcases hg with rfl | rfl
      · rw [List.filter_cons_of_pos (by decide), List.filter_cons_of_neg (by decide)]
      · rw [List.filter_cons_of_neg (by decide)]
    · rw [not_or] at hg
      rw [List.filter_cons_of_pos (by simpa using hg.2), List.filter_cons_of_pos (by simpa using hg.1)]
      have hskip : ¬ (g = [] ∨ g = dot) := by simp [hg.1, hg.2]
      rw [names_cons, names_cons, if_neg hskip, if_neg hskip]
      cases st with
      | nil => simp only [ih]
      | cons y st => simp only [ih]

/-- Cancelling in place reads the names, as long as they do not lead above the root; when
they do, it stops with `..` at the front. -/
theorem climb_concat (st V : List Seg) (last : Seg) (hV : ∀ g ∈ V, g ≠ [] ∧ g ≠ dot) :
    (∀ st', names st V = some st' → climb st (V ++ [last]) = st'.reverse ++ [last]) ∧
    (names st V = none → ∃ tail, tail ≠ [] ∧ climb st (V ++ [last]) = dotdot :: tail) := by
  induction V generalizing st with
  | nil =>
    refine ⟨fun st' h => ?_, fun h => by cases h⟩
    cases h
    rfl
  | cons g gs ih =>
    have hg := hV g (by simp)
    have hskip : ¬ (g = [] ∨ g = dot) := by simp [hg.1, hg.2]
    have ih' := fun st => ih st fun h hh => hV h (by simp [hh])
    rw [List.cons_append, climb_cons st g (by simp), names_cons, if_neg hskip]
    by_cases hd : g = dotdot
    · simp only [hd, if_true]
      cases st with
      | nil =>
        refine ⟨?_, fun _ => ⟨gs ++ [last], by simp, rfl⟩⟩
        intro st' h
        cases h
      | cons y st => exact ih' st
    · simp only [hd, if_false]
      exact ih' (g :: st)

theorem Slashless.climb {st gs : List Seg} (hst : Slashless st) (hgs : Slashless gs) :
    Slashless (climb st gs) := by
  induction gs generalizing st with
  | nil => exact fun g hg => hst g (List.mem_reverse.mp hg)
  | cons g gs ih =>
    have hg : slash ∉ g := hgs g (by simp)
    have hgs' : Slashless gs := fun x hx => hgs x (by simp [hx])
    rcases List.eq_nil_or_concat gs with rfl | ⟨gs', last, hne⟩
    · intro x hx
      rcases List.mem_append.mp hx with hx | hx
      · exact hst x (List.mem_reverse.mp hx)
      · exact hgs x hx
    · rw [climb_cons st g (by rw [hne]; simp)]
      split_ifs
      · cases st with
        | nil => exact hgs
        | cons y st => exact ih (fun x hx => hst x (by simp [hx])) hgs'
      · refine ih ?_ hgs'
        intro x hx
        rcases List.mem_cons.mp hx with rfl | hx
        · exact hg
        · exact hst x hx

/-- Names that were reached are names. -/
theorem names_isName {st gs st' : List Seg} (hst : ∀ g ∈ st, IsName g) (hgs : Slashless gs)
    (h : names st gs = some st') : ∀ g ∈ st', IsName g := by
  induction gs generalizing st with
  | nil =>
    cases h
    exact hst
  | cons g gs ih =>
    have hgs' : Slashless gs := fun x hx => hgs x (by simp [hx])
    rw [names_cons] at h
    split_ifs at h with hskip hd
    · exact ih hst hgs' h
    · cases st with
      | nil => cases h
      | cons y st => exact ih (fun x hx => hst x (by simp [hx])) hgs' h
    · rw [not_or] at hskip
      refine ih ?_ hgs' h
      intro x hx
      rcases List.mem_cons.mp hx with rfl | hx
      · exact ⟨hskip.1, hskip.2, hd, hgs x (by simp)⟩
      · exact hst x hx

theorem foldl_enter_of_names {st gs st' : List Seg} (h : names st gs = some st') :
    gs.foldl enter st = st' := by
  induction gs generalizing st with
  | nil =>
    cases h
    rfl
  | cons g gs ih =>
    rw [names_cons] at h
    rw [List.foldl_cons]
    unfold enter
    split_ifs at h ⊢
    · exact ih h
    · cases st with
      | nil => cases h
      | cons y st => exact ih h
    · exact ih h

theorem lexical_concat (gs : List Seg) (last : Seg) :
    lexical (gs ++ [last]) = (enter (gs.foldl enter []) last).reverse := by
  simp [lexical]

theorem foldl_enter_names (st gs : List Seg) (h : ∀ g ∈ gs, IsName g) :
    gs.foldl enter st = gs.reverse ++ st := by
  induction gs generalizing st with
  | nil => rfl
  | cons g gs ih =>
    rw [List.foldl_cons, enter_name (h g (by simp)), ih _ fun x hx => h x (by simp [hx])]
    simp

theorem names_append (st a b : List Seg) :
    names st (a ++ b) = (names st a).bind fun st' => names st' b := by
  induction a generalizing st with
  | nil => rfl
  | cons g gs ih =>
    rw [List.cons_append, names_cons, names_cons]
    split_ifs
    · exact ih st
    · cases st with
      | nil => rfl
      | cons y st => exact ih st
    · exact ih (g :: st)

theorem names_of_isName (st gs : List Seg) (h : ∀ g ∈ gs, IsName g) :
    names st gs = some (gs.reverse ++ st) := by
  induction gs generalizing st with
  | nil => rfl
  | cons g gs ih =>
    obtain ⟨h1, h2, h3, -⟩ := h g (by simp)
    rw [names_cons, if_neg (by simp [h1, h2]), if_neg h3, ih _ fun x hx => h x (by simp [hx])]
    simp

/-- Reading on top of other names: those below are lost as often as the reading leads above
its own start. -/
theorem foldl_enter_append (a gs : List Seg) :
    ∃ k, (∀ b, gs.foldl enter (a ++ b) = gs.foldl enter a ++ b.drop k) ∧
      (k = 0 ↔ names a gs ≠ none) := by
  induction gs generalizing a with
  | nil => exact ⟨0, by simp, by simp [names]⟩
  | cons g gs ih =>
    simp only [List.foldl_cons, names_cons]
    by_cases hskip : g = [] ∨ g = dot
    · simp only [enter_skip hskip, hskip, if_true]
      exact ih a
    by_cases hd : g = dotdot
    · subst hd
      simp only [hskip, if_true, if_false, enter_dotdot]
      cases a with
      | nil =>
        obtain ⟨k, hk, -⟩ := ih []
        refine ⟨k + 1, fun b => ?_, by simp⟩
        have := hk b.tail
        rw [List.drop_tail] at this
        exact this
      | cons y a => exact ih a
    · simp only [enter, hskip, hd, if_false]
      exact ih (g :: a)

theorem foldl_enter_dropInner {x : Seg} (hx : x = [] ∨ x = dot) (st gs : List Seg) :
    (dropInner x gs).foldl enter st = gs.foldl enter st := by
  induction gs generalizing st with
  | nil => rfl
  | cons g gs ih =>
    rcases List.eq_nil_or_concat gs with rfl | ⟨gs', last, hgs⟩
    · rfl
    · rw [dropInner_cons x g (by rw [hgs]; simp), List.foldl_cons]
      split_ifs with hg
      · rw [hg, enter_skip hx, ih]
      · rw [List.foldl_cons, ih]

/-- Cancelling in place does not change what is read. -/
theorem foldl_enter_climb {st V : List Seg} {last : Seg} (hst : ∀ g ∈ st, IsName g)
    (hs : Slashless V) (hV : ∀ g ∈ V, g ≠ [] ∧ g ≠ dot) :
    (climb st (V ++ [last])).foldl enter [] = (V ++ [last]).foldl enter st := by
  induction V generalizing st with
  | nil =>
    have hread : st.reverse.foldl enter [] = st := by
      rw [foldl_enter_names [] _ fun g hg => hst g (List.mem_reverse.mp hg)]
      simp
    change (st.reverse ++ [last]).foldl enter [] = _
    rw [List.foldl_append, hread, List.nil_append]
  | cons g gs ih =>
    obtain ⟨h1, h2⟩ := hV g (by simp)
    have ih' := fun {st} (hst : ∀ x ∈ st, IsName x) => ih hst (fun x hx => hs x (by simp [hx]))
      (fun x hx => hV x (by simp [hx]))
    rw [List.cons_append, climb_cons st g (by simp), List.foldl_cons]
    by_cases hd : g = dotdot
    · subst hd
      rw [if_pos rfl, enter_dotdot]
      cases st with
      | nil => rfl
      | cons y st => exact ih' fun x hx => hst x (by simp [hx])
    · have hg : IsName g := ⟨h1, h2, hd, hs g (by simp)⟩
      rw [if_neg hd, enter_name hg]
      refine ih' fun x hx => ?_
      rcases List.mem_cons.mp hx with rfl | hx
      · exact hg
      · exact hst x hx

theorem prefix_append_render {z w : Seg} (hz : slash ∉ z) (T : List Seg) :
    z <+: w ++ render T ↔ z <+: w := by
  induction z generalizing w with
  | nil => simp
  | cons a z ih =>
    simp only [List.mem_cons, not_or] at hz
    cases w with
    | nil =>
      cases T with
      | nil => simp
      | cons g gs =>
        simp only [List.nil_append, render_cons, List.cons_prefix_cons, List.prefix_nil,
          reduceCtorEq, iff_false, not_and]
        intro h
        exact absurd h.symm hz.1
    | cons b w => rw [List.cons_append, List.cons_prefix_cons, List.cons_prefix_cons, ih hz.2]

theorem append_slash_prefix_iff {g w : Seg} (hg : slash ∉ g) (hw : slash ∉ w) (r : List UInt8)
    (T : List Seg) : g ++ slash :: r <+: w ++ render T ↔ g = w ∧ slash :: r <+: render T := by
  induction g generalizing w with
  | nil =>
    cases w with
    | nil => simp
    | cons b w =>
      simp only [List.mem_cons, not_or] at hw
      simp only [List.nil_append, List.cons_append, List.cons_prefix_cons, reduceCtorEq, false_and,
        iff_false, not_and]
      intro h
      exact absurd h hw.1
  | cons a g ih =>
    simp only [List.mem_cons, not_or] at hg
    cases w with
    | nil =>
      cases T with
      | nil => simp
      | cons t T =>
        simp only [List.cons_append, List.nil_append, render_cons, List.cons_prefix_cons,
          reduceCtorEq, false_and, iff_false, not_and]
        intro h
        exact absurd h.symm hg.1
    | cons b w =>
      simp only [List.mem_cons, not_or] at hw
      rw [List.cons_append, List.cons_append, List.cons_prefix_cons, ih hg.2 hw.2, List.cons.injEq]
      tauto

/-- A text starts with the text of other segments exactly when its segments do, the last
one being a prefix only. -/
theorem render_prefix_iff {c : List Seg} {z : Seg} {T : List Seg} (hc : Slashless (c ++ [z]))
    (hT : Slashless T) :
    render (c ++ [z]) <+: render T ↔ ∃ w T', T = c ++ w :: T' ∧ z <+: w := by
  induction c generalizing T with
  | nil =>
    cases T with
    | nil => simp
    | cons w T =>
      have hz : slash ∉ z := hc z (by simp)
      simp only [List.nil_append, render_cons, render_nil, List.append_nil, List.cons_prefix_cons,
        true_and, prefix_append_render hz, List.cons.injEq]
      constructor
      · intro h
        exact ⟨w, T, ⟨rfl, rfl⟩, h⟩
      · rintro ⟨w', T', ⟨rfl, rfl⟩, h⟩
        exact h
  | cons g gs ih =>
    cases T with
    | nil => simp
    | cons w T =>
      have hg : slash ∉ g := hc g (by simp)
      have hw : slash ∉ w := hT w (by simp)
      have ih' := ih (T := T) (fun x hx => hc x (by simp at hx ⊢; tauto))
        fun x hx => hT x (by simp [hx])
      have hr : ∃ r, render (gs ++ [z]) = slash :: r := by
        obtain ⟨a, as, ha⟩ := List.exists_cons_of_ne_nil (l := gs ++ [z]) (by simp)
        exact ⟨_, by rw [ha, render_cons]⟩
      obtain ⟨r, hr⟩ := hr
      rw [List.cons_append, render_cons, render_cons, List.cons_prefix_cons, and_iff_right rfl, hr,
        append_slash_prefix_iff hg hw, ← hr, ih']
      constructor
      · rintro ⟨rfl, w', T', rfl, h⟩
        exact ⟨w', T', rfl, h⟩
      · rintro ⟨w', T', heq, h⟩
        obtain ⟨rfl, rfl⟩ := List.cons.inj heq
        exact ⟨rfl, w', T', rfl, h⟩

/-! Texts that are cut -/

/-- Reading the segment changes nothing. -/
def Idle (st : List Seg) (g : Seg) : Prop := g = [] ∨ g = dot ∨ g = dotdot ∧ st = []

theorem enter_eq_self_iff {st : List Seg} {g : Seg} : enter st g = st ↔ Idle st g := by
  unfold Idle enter
  by_cases hskip : g = [] ∨ g = dot
  · rw [if_pos hskip]
    tauto
  rw [if_neg hskip]
  by_cases hd : g = dotdot
  · rw [if_pos hd]
    cases st <;> simp_all
  · rw [if_neg hd]
    simp_all

theorem enter_length_le (st : List Seg) (g : Seg) : (enter st g).length ≤ st.length + 1 := by
  unfold enter
  split_ifs
  · omega
  · rw [List.length_tail]
    omega
  · exact Nat.le_refl _

theorem foldl_enter_idle {st gs : List Seg} (h : ∀ g ∈ gs, Idle st g) : gs.foldl enter st = st := by
  induction gs with
  | nil => rfl
  | cons g gs ih =>
    rw [List.foldl_cons, enter_eq_self_iff.mpr (h g (by simp))]
    exact ih fun x hx => h x (by simp [hx])

/-- A text of names that is cut does not read as these names. -/
theorem foldl_segments_cut {g : Seg} {gs : List Seg} (h : ∀ x ∈ g :: gs, IsName x) {k : ℕ}
    (hk : k < (g ++ render gs).length) (st : List Seg) :
    (segments ((g ++ render gs).take k)).foldl enter st ≠ gs.reverse ++ g :: st := by
  induction gs generalizing g k st with
  | nil =>
    obtain ⟨-, -, -, hslash⟩ := h g (by simp)
    rw [render_nil, List.append_nil] at hk ⊢
    rw [segments_of_slashless fun hmem => hslash (List.mem_of_mem_take hmem)]
    intro heq
    change enter st (g.take k) = g :: st at heq
    have hlen := congrArg List.length heq
    unfold enter at heq hlen
    split_ifs at heq hlen
    · simp at hlen
    · rw [List.length_tail, List.length_cons] at hlen
      omega
    · have hcut := congrArg List.length (List.cons.inj heq).1
      rw [List.length_take] at hcut
      omega
  | cons g' gs ih =>
    obtain ⟨-, -, -, hslash⟩ := h g (by simp)
    rw [render_cons] at hk ⊢
    rcases Nat.lt_or_ge g.length k with hlt | hle
    · obtain ⟨j, rfl⟩ : ∃ j, k = g.length + (j + 1) := ⟨k - g.length - 1, by omega⟩
      rw [List.length_append, List.length_cons] at hk
      rw [List.take_length_add_append, List.take_succ_cons, segments_append_slash hslash,
        List.foldl_cons, enter_name (h g (by simp)), List.reverse_cons, List.append_assoc]
      exact ih (fun x hx => h x (by simp at hx ⊢; tauto)) (by omega) (g :: st)
    · -- one segment is left, and at least two names should be read
      rw [List.take_append_of_le_length hle,
        segments_of_slashless fun hmem => hslash (List.mem_of_mem_take hmem)]
      intro heq
      have hlen := enter_length_le st (g.take k)
      change enter st (g.take k) = _ at heq
      rw [heq] at hlen
      simp at hlen
      omega

end CSem
