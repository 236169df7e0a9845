import Defuse.Lib.Words

/-! Allocated memory in which a byte has no value until something is stored there, and numbers
as bytes with the highest first. -/

namespace CSem

abbrev Cells := List (Option UInt8)

namespace Cells

def load (mem : Cells) (off n : ℕ) : Checked (List UInt8) :=
  if off + n ≤ mem.length then
    match ((mem.drop off).take n).mapM id with
    | some bytes => .ok bytes
    | none => .error .uninitialised
  else .error .outOfBounds

def store (mem : Cells) (off : ℕ) (bytes : List UInt8) : Checked Cells :=
  if off + bytes.length ≤ mem.length then
    .ok (mem.take off ++ bytes.map some ++ mem.drop (off + bytes.length))
  else .error .outOfBounds

/-- `realloc`: what fits into the new size is kept. -/
def resize (mem : Cells) (size : ℕ) : Cells :=
  mem.take size ++ List.replicate (size - mem.length) none

/-- The string at the beginning, up to its terminator. -/
def text : Cells → Checked (List UInt8)
  | [] => .error .outOfBounds
  | none :: _ => .error .uninitialised
  | some c :: mem => if c = 0 then .ok [] else do return c :: (← text mem)

/-- The bytes from `off` on are `bytes`. -/
def Holds (mem : Cells) (off : ℕ) (bytes : List UInt8) : Prop :=
  ∃ pre post, mem = pre ++ bytes.map some ++ post ∧ pre.length = off

variable {mem : Cells} {off : ℕ} {bytes a b : List UInt8}

theorem Holds.length_le (h : mem.Holds off bytes) : off + bytes.length ≤ mem.length := by
  obtain ⟨pre, post, rfl, rfl⟩ := h
  simp

theorem mapM_id_some (bytes : List UInt8) : (bytes.map some).mapM id = some bytes := by
  induction bytes with
  | nil => rfl
  | cons b bytes ih =>
    rw [List.map_cons, List.mapM_cons, ih]
    rfl

theorem Holds.load (h : mem.Holds off (a ++ b)) : mem.load off a.length = .ok a := by
  have hle := h.length_le
  obtain ⟨pre, post, rfl, rfl⟩ := h
  rw [List.length_append] at hle
  unfold Cells.load
  rw [if_pos (by omega), List.append_assoc, List.drop_left, List.map_append, List.append_assoc,
    List.take_left' (List.length_map some), mapM_id_some]

theorem holds_zero : mem.Holds 0 bytes ↔ ∃ post, mem = bytes.map some ++ post := by
  constructor
  · intro h
    obtain ⟨pre, post, hmem, hpre⟩ := h
    obtain rfl := List.eq_nil_of_length_eq_zero hpre
    exact ⟨post, hmem⟩
  · intro h
    obtain ⟨post, rfl⟩ := h
    exact ⟨[], post, rfl, rfl⟩

@[simp] theorem resize_length (mem : Cells) (size : ℕ) : (mem.resize size).length = size := by
  rw [resize, List.length_append, List.length_take, List.length_replicate]
  omega

theorem Holds.resize (h : mem.Holds 0 bytes) {size : ℕ} (hsize : bytes.length ≤ size) :
    (mem.resize size).Holds 0 bytes := by
  obtain ⟨post, rfl⟩ := holds_zero.mp h
  have htake : (bytes.map some).take size = bytes.map some :=
    List.take_of_length_le (by rwa [List.length_map])
  rw [holds_zero, Cells.resize, List.take_append, htake, List.append_assoc]
  exact ⟨_, rfl⟩

theorem store_ok (h : off + bytes.length ≤ mem.length) :
    mem.store off bytes =
      .ok (mem.take off ++ bytes.map some ++ mem.drop (off + bytes.length)) := if_pos h

theorem Holds.store (h : mem.Holds 0 a) (hroom : a.length + b.length ≤ mem.length) :
    ∃ mem', mem.store a.length b = .ok mem' ∧ mem'.Holds 0 (a ++ b) ∧ mem'.length = mem.length := by
  obtain ⟨post, rfl⟩ := holds_zero.mp h
  refine ⟨_, store_ok hroom, ?_, ?_⟩
  · rw [holds_zero, List.take_left' (List.length_map some), List.map_append]
    exact ⟨_, rfl⟩
  · simp only [List.length_append, List.length_take, List.length_drop, List.length_map] at hroom ⊢
    omega

end Cells

/-- The `k` low bytes of `n`, the highest first. -/
def beBytes (k n : ℕ) : List UInt8 := (leBytes k n).reverse

def beNat (bytes : List UInt8) : ℕ := leNat bytes.reverse

@[simp] theorem beBytes_length (k n : ℕ) : (beBytes k n).length = k := by simp [beBytes]

theorem beNat_beBytes (k n : ℕ) : beNat (beBytes k n) = n % 256 ^ k := by
  rw [beNat, beBytes, List.reverse_reverse, leNat_leBytes]

theorem leNat_lt (bytes : List UInt8) : leNat bytes < 256 ^ bytes.length := by
  induction bytes with
  | nil => simp [leNat]
  | cons b bytes ih =>
    have := b.toNat_lt
    rw [leNat, List.length_cons, pow_succ]
    omega

theorem leBytes_leNat (bytes : List UInt8) : leBytes bytes.length (leNat bytes) = bytes := by
  induction bytes with
  | nil => rfl
  | cons b bytes ih =>
    have hb := b.toNat_lt
    rw [List.length_cons, leBytes, leNat, Nat.add_mul_mod_self_left, Nat.mod_eq_of_lt hb,
      UInt8.ofNat_toNat, Nat.add_mul_div_left _ _ (by decide), Nat.div_eq_of_lt hb, Nat.zero_add, ih]

theorem beBytes_beNat (bytes : List UInt8) : beBytes bytes.length (beNat bytes) = bytes := by
  rw [beBytes, beNat, ← List.length_reverse, leBytes_leNat, List.reverse_reverse]

theorem beNat_lt (bytes : List UInt8) : beNat bytes < 256 ^ bytes.length := by
  have h := leNat_lt bytes.reverse
  rwa [List.length_reverse] at h

theorem beBytes_mod (k n : ℕ) : beBytes k (n % 256 ^ k) = beBytes k n := by
  have h := beBytes_beNat (beBytes k n)
  rwa [beBytes_length, beNat_beBytes] at h

theorem beBytes_add (j k n : ℕ) : beBytes (j + k) n = beBytes j (n / 256 ^ k) ++ beBytes k n := by
  have hle : leBytes (k + j) n = leBytes k n ++ leBytes j (n / 256 ^ k) := by
    induction k generalizing n with
    | zero => simp [leBytes]
    | succ k ih =>
      rw [Nat.add_right_comm, leBytes, ih, leBytes, List.cons_append, Nat.div_div_eq_div_mul,
        pow_succ, mul_comm]
  rw [beBytes, Nat.add_comm, hle, List.reverse_append]
  rfl

end CSem
