import Mathlib.Tactic.Common
import Mathlib.Tactic.Ring

/-! Cutting a range into pieces over a grid of chunks: a piece that starts on the grid is
as long as `size` allows, one that starts off it goes up to the next grid point, even when
less is left. The pieces tile the range when none of them goes past its end. -/

namespace CSem

variable (size chunk : ℕ)

/-- From `off` to the next point of the grid. -/
def boundary (off : ℕ) : ℕ := chunk - off % chunk

/-- The piece cut at `off` when `left` is still to come. -/
def piece (off left : ℕ) : ℕ :=
  if 0 < left ∧ off % chunk ≠ 0 then boundary chunk off else min left size

/-- The distance after which cutting starts on the grid again: a piece of `size` and the
one up to the next grid point. -/
def period : ℕ := (size / chunk + 1) * chunk

def GridTiles (left : ℕ) : Prop := size % chunk = 0 ∨ left % period size chunk ≤ size

def gridPieces (left : ℕ) : ℕ :=
  if size % chunk = 0 then (left + size - 1) / size
  else 2 * (left / period size chunk) + if left % period size chunk = 0 then 0 else 1

/-- No piece goes past the end of the range of length `left` at `off`. -/
def Tiles (off left : ℕ) : Prop :=
  if off % chunk = 0 ∨ left = 0 then GridTiles size chunk left
  else boundary chunk off ≤ left ∧ GridTiles size chunk (left - boundary chunk off)

/-- The number of pieces of a range that is tiled. -/
def pieces (off left : ℕ) : ℕ :=
  if off % chunk = 0 ∨ left = 0 then gridPieces size chunk left
  else 1 + gridPieces size chunk (left - boundary chunk off)

/-- No piece is longer than `size`; one that goes up to the grid may be. -/
def PiecesFit (off left : ℕ) : Prop :=
  (off % chunk ≠ 0 → 0 < left → boundary chunk off ≤ size) ∧
    (size % chunk ≠ 0 → size + (if off % chunk = 0 then 0 else boundary chunk off) < left →
      boundary chunk size ≤ size)

instance (off left : ℕ) : Decidable (PiecesFit size chunk off left) :=
  inferInstanceAs (Decidable (_ ∧ _))

instance (left : ℕ) : Decidable (GridTiles size chunk left) :=
  inferInstanceAs (Decidable (_ ∨ _))

instance (off left : ℕ) : Decidable (Tiles size chunk off left) := by
  unfold Tiles
  infer_instance

variable {size chunk} {off left : ℕ}

theorem tiles_grid (h : off % chunk = 0) : Tiles size chunk off left ↔ GridTiles size chunk left := by
  unfold Tiles
  rw [if_pos (Or.inl h)]

theorem tiles_off (h : off % chunk ≠ 0) (hl : 0 < left) : Tiles size chunk off left ↔
    boundary chunk off ≤ left ∧ GridTiles size chunk (left - boundary chunk off) := by
  unfold Tiles
  rw [if_neg (by omega)]

theorem pieces_grid (h : off % chunk = 0) :
    pieces size chunk off left = gridPieces size chunk left := by
  unfold pieces
  rw [if_pos (Or.inl h)]

theorem pieces_off (h : off % chunk ≠ 0) (hl : 0 < left) :
    pieces size chunk off left = 1 + gridPieces size chunk (left - boundary chunk off) := by
  unfold pieces
  rw [if_neg (by omega)]

theorem tiles_zero (off : ℕ) : Tiles size chunk off 0 := by
  unfold Tiles GridTiles
  rw [if_pos (Or.inr rfl), Nat.zero_mod]
  exact Or.inr (Nat.zero_le _)

theorem boundary_pos (hc : 0 < chunk) (off : ℕ) : 0 < boundary chunk off := by
  have := Nat.mod_lt off hc
  unfold boundary
  omega

theorem add_boundary_mod (hc : 0 < chunk) (off : ℕ) : (off + boundary chunk off) % chunk = 0 := by
  have hlt := Nat.mod_lt off hc
  have hdiv := Nat.div_add_mod off chunk
  unfold boundary
  rw [show off + (chunk - off % chunk) = chunk * (off / chunk + 1) by rw [mul_add, mul_one]; omega]
  exact Nat.mul_mod_right _ _

theorem period_eq (size : ℕ) (hc : 0 < chunk) : period size chunk = size + boundary chunk size := by
  have hlt := Nat.mod_lt size hc
  have hdiv := Nat.div_add_mod size chunk
  unfold period boundary
  rw [add_mul, one_mul, mul_comm]
  omega

theorem piece_pos (hs : 0 < size) (hc : 0 < chunk) (hl : 0 < left) (off : ℕ) :
    0 < piece size chunk off left := by
  have := boundary_pos hc off
  unfold piece
  split_ifs <;> omega

theorem gridPieces_zero (hs : 0 < size) : gridPieces size chunk 0 = 0 := by
  unfold gridPieces
  split_ifs with hgrid hmod
  · exact Nat.div_eq_of_lt (by omega)
  · rw [Nat.zero_div]
  · exact absurd (Nat.zero_mod _) hmod

theorem gridPieces_one (hc : 0 < chunk) (hl : 0 < left) (h : left ≤ size) :
    gridPieces size chunk left = 1 := by
  have hlt : left < period size chunk := by
    have := boundary_pos hc size
    rw [period_eq size hc]
    omega
  unfold gridPieces
  rw [Nat.div_eq_of_lt hlt, Nat.mod_eq_of_lt hlt, if_neg (by omega : left ≠ 0)]
  split_ifs
  · rw [show left + size - 1 = left - 1 + size by omega, Nat.add_div_right _ (by omega),
      Nat.div_eq_of_lt (by omega)]
  · rfl

theorem gridPieces_size (hs : 0 < size) (hgrid : size % chunk = 0) (h : size < left) :
    gridPieces size chunk left = gridPieces size chunk (left - size) + 1 := by
  unfold gridPieces
  rw [if_pos hgrid, if_pos hgrid, show left + size - 1 = left - size + size - 1 + size by omega,
    Nat.add_div_right _ hs]

theorem gridPieces_period (hgrid : size % chunk ≠ 0) (hp : 0 < period size chunk)
    (h : period size chunk ≤ left) : gridPieces size chunk left =
      gridPieces size chunk (left - period size chunk) + 2 := by
  unfold gridPieces
  rw [if_neg hgrid, if_neg hgrid, Nat.mod_eq_sub_mod h, Nat.div_eq_sub_div hp h]
  ring

theorem pieces_zero (hs : 0 < size) (off : ℕ) : pieces size chunk off 0 = 0 := by
  unfold pieces
  rw [if_pos (Or.inr rfl), gridPieces_zero hs]

theorem boundary_add_size (hoff : off % chunk = 0) :
    boundary chunk (off + size) = boundary chunk size := by
  unfold boundary
  rw [Nat.add_mod, hoff, Nat.zero_add, Nat.mod_mod]

section Step

variable (hc : 0 < chunk) (hl : 0 < left)

include hc hl

/-- A range is tiled when its first piece fits and the rest of it is tiled. -/
theorem tiles_step : Tiles size chunk off left ↔ piece size chunk off left ≤ left ∧
    Tiles size chunk (off + piece size chunk off left) (left - piece size chunk off left) := by
  have hp := period_eq size hc
  have hbpos := boundary_pos hc size
  by_cases hoff : off % chunk = 0
  · have hpiece : piece size chunk off left = min left size := if_neg (by omega)
    rw [hpiece, tiles_grid hoff]
    rcases Nat.lt_or_ge size left with h | h
    · rw [Nat.min_eq_right (by omega)]
      have hmod : (off + size) % chunk = size % chunk := by
        rw [Nat.add_mod, hoff, Nat.zero_add, Nat.mod_mod]
      by_cases hgrid : size % chunk = 0
      · rw [tiles_grid (hmod.trans hgrid)]
        unfold GridTiles
        simp only [hgrid, true_or, and_true, true_iff]
        omega
      · -- the next piece goes up to the grid, and a whole period is cut off
        rw [tiles_off (hmod.trans_ne hgrid) (by omega), boundary_add_size hoff]
        unfold GridTiles
        simp only [hgrid, false_or]
        rcases Nat.lt_or_ge left (period size chunk) with hlt | hge
        · rw [Nat.mod_eq_of_lt hlt]
          omega
        · rw [Nat.mod_eq_sub_mod hge, show left - size - boundary chunk size =
            left - period size chunk by omega]
          omega
    · have hgt : GridTiles size chunk left := by
        right
        rw [Nat.mod_eq_of_lt (by omega)]
        exact h
      rw [Nat.min_eq_left h, Nat.sub_self]
      simp [hgt, tiles_zero]
  · have hpiece : piece size chunk off left = boundary chunk off := if_pos ⟨hl, hoff⟩
    rw [hpiece, tiles_off hoff hl, tiles_grid (add_boundary_mod hc off)]

/-- The pieces fit when the first and those of the rest do. -/
theorem piecesFit_step : PiecesFit size chunk off left ↔ piece size chunk off left ≤ size ∧
    PiecesFit size chunk (off + piece size chunk off left)
      (left - piece size chunk off left) := by
  unfold PiecesFit
  by_cases hoff : off % chunk = 0
  · have hpiece : piece size chunk off left = min left size := if_neg (by omega)
    rw [hpiece]
    rcases Nat.lt_or_ge size left with h | h
    · rw [Nat.min_eq_right (by omega), if_pos hoff, boundary_add_size hoff, Nat.add_mod, hoff,
        Nat.zero_add, Nat.mod_mod]
      by_cases hgrid : size % chunk = 0
      · simp [hgrid]
      · simp only [hgrid, if_false, ne_eq, not_true_eq_false, not_false_eq_true, false_imp_iff,
          true_and, true_imp_iff, le_refl]
        omega
    · rw [Nat.min_eq_left h]
      refine ⟨fun _ => ⟨h, fun _ _ => ?_, fun _ _ => ?_⟩, fun _ => ⟨fun h0 => absurd hoff h0, ?_⟩⟩
      all_goals omega
  · have hpiece : piece size chunk off left = boundary chunk off := if_pos ⟨hl, hoff⟩
    have hnext := add_boundary_mod hc off
    rw [hpiece, if_neg hoff, if_pos hnext]
    refine and_congr ⟨fun h => h hoff hl, fun h _ _ => h⟩ ?_
    refine ⟨fun h => ⟨fun h0 => absurd hnext h0, fun hs hlt => h hs (by omega)⟩,
      fun h hs hlt => h.2 hs (by omega)⟩

/-- It has one piece more than the rest of it. -/
theorem pieces_step (hs : 0 < size) (h : Tiles size chunk off left) :
    pieces size chunk off left =
      pieces size chunk (off + piece size chunk off left) (left - piece size chunk off left) +
        1 := by
  have hp := period_eq size hc
  have hbpos := boundary_pos hc size
  by_cases hoff : off % chunk = 0
  · have hpiece : piece size chunk off left = min left size := if_neg (by omega)
    rw [hpiece, pieces_grid hoff]
    rcases Nat.lt_or_ge size left with hlt | hge
    · rw [Nat.min_eq_right (by omega)]
      have hmod : (off + size) % chunk = size % chunk := by
        rw [Nat.add_mod, hoff, Nat.zero_add, Nat.mod_mod]
      by_cases hgrid : size % chunk = 0
      · rw [pieces_grid (hmod.trans hgrid), gridPieces_size hs hgrid hlt]
      · -- tiled, so that the piece up to the grid fits as well
        have hfull : period size chunk ≤ left := by
          rw [tiles_grid hoff] at h
          by_contra hcon
          rcases h with h | h
          · exact hgrid h
          · rw [Nat.mod_eq_of_lt (by omega)] at h
            omega
        rw [pieces_off (hmod.trans_ne hgrid) (by omega), boundary_add_size hoff,
          gridPieces_period hgrid (by omega) hfull, show left - size - boundary chunk size =
            left - period size chunk by omega]
        ring
    · rw [Nat.min_eq_left hge, Nat.sub_self, pieces_zero hs, gridPieces_one hc hl hge]
  · have hpiece : piece size chunk off left = boundary chunk off := if_pos ⟨hl, hoff⟩
    rw [hpiece, pieces_off hoff hl, pieces_grid (add_boundary_mod hc off), add_comm]

end Step

end CSem
