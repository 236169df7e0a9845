import Defuse.Lib.Words
import Mathlib.Data.LawfulXor.Basic
import Mathlib.Data.List.GetD
import Mathlib.Logic.Function.Iterate

/-! Linear feedback shift registers of any width. The bits of a message are added at the low
end, lowest bit first; the register divides by a polynomial in that bit order. -/

namespace CSem

variable {w : ℕ}

/-- The register moves down by one, and a one that falls out comes back as `poly`. -/
def lfsr (poly c : BitVec w) : BitVec w := if c.getLsbD 0 then (c >>> 1) ^^^ poly else c >>> 1

/-- The register after the bits of a message. -/
def feed (poly : BitVec w) (c : BitVec w) (bits : List Bool) : BitVec w :=
  bits.foldl (fun c b => lfsr poly (c ^^^ (BitVec.ofBool b).setWidth w)) c

/-- The first bits of a list as a word, lowest bit first. -/
def leWord (w : ℕ) : List Bool → BitVec w
  | [] => 0#w
  | b :: bits => (BitVec.ofBool b).setWidth w ^^^ (leWord w bits <<< 1)

variable (poly : BitVec w)

theorem xor_right_comm (a b c : BitVec w) : a ^^^ b ^^^ c = a ^^^ c ^^^ b := by
  rw [BitVec.xor_assoc, BitVec.xor_comm b, ← BitVec.xor_assoc]

theorem lfsr_xor (a b : BitVec w) : lfsr poly (a ^^^ b) = lfsr poly a ^^^ lfsr poly b := by
  unfold lfsr
  rw [BitVec.getLsbD_xor, BitVec.ushiftRight_xor_distrib]
  cases a.getLsbD 0 <;> cases b.getLsbD 0
  · rfl
  · exact BitVec.xor_assoc _ _ _
  · exact xor_right_comm _ _ _
  · -- both feed back, and what they feed back cancels
    change a >>> 1 ^^^ b >>> 1 = (a >>> 1 ^^^ poly) ^^^ (b >>> 1 ^^^ poly)
    rw [← BitVec.xor_assoc, xor_right_comm (a >>> 1), xor_cancel_right]

theorem iterate_lfsr_xor (n : ℕ) (a b : BitVec w) :
    (lfsr poly)^[n] (a ^^^ b) = (lfsr poly)^[n] a ^^^ (lfsr poly)^[n] b := by
  induction n generalizing a b with
  | zero => rfl
  | succ n ih => rw [Function.iterate_succ_apply, lfsr_xor, ih]; rfl

theorem iterate_lfsr_zero (n : ℕ) : (lfsr poly)^[n] 0#w = 0#w := by
  have h := iterate_lfsr_xor poly n 0#w 0#w
  rwa [BitVec.xor_self, BitVec.xor_self] at h

theorem iterate_lfsr_clear {n : ℕ} {c : BitVec w} (h : ∀ i < n, c.getLsbD i = false) :
    (lfsr poly)^[n] c = c >>> n := by
  induction n with
  | zero => simp
  | succ n ih =>
    have hlow : (c >>> n).getLsbD 0 = false := by simpa using h n n.lt_succ_self
    rw [Function.iterate_succ_apply', ih fun i hi => h i (Nat.lt_succ_of_lt hi), lfsr, hlow,
      BitVec.shiftRight_add]
    rfl

theorem low_xor_high (n : ℕ) (c : BitVec w) :
    (c.setWidth n).setWidth w ^^^ ((c >>> n) <<< n) = c := by
  apply BitVec.eq_of_getLsbD_eq
  intro i hi
  simp only [BitVec.getLsbD_xor, BitVec.getLsbD_setWidth, BitVec.getLsbD_shiftLeft,
    BitVec.getLsbD_ushiftRight, hi, decide_true, Bool.true_and]
  by_cases hn : i < n
  · simp [hn]
  · simp [hn, show n + (i - n) = i by omega]

/-- The low bits are fed back and the others move down. -/
theorem iterate_lfsr_split (n : ℕ) (c : BitVec w) :
    (lfsr poly)^[n] c = (lfsr poly)^[n] ((c.setWidth n).setWidth w) ^^^ (c >>> n) := by
  have hdown : (lfsr poly)^[n] ((c >>> n) <<< n) = c >>> n := by
    rw [iterate_lfsr_clear poly fun i hi => by simp [hi]]
    apply BitVec.eq_of_getLsbD_eq
    intro i hi
    simp only [BitVec.getLsbD_ushiftRight, BitVec.getLsbD_shiftLeft, Nat.not_lt.mpr,
      Nat.le_add_right, Nat.add_sub_cancel_left, decide_false, Bool.not_false, Bool.and_true]
    by_cases hw : n + i < w
    · simp [hw]
    · simp [hw, BitVec.getLsbD_of_ge c (n + i) (by omega)]
  conv_lhs => rw [← low_xor_high n c]
  rw [iterate_lfsr_xor, hdown]

@[simp] theorem feed_nil (c : BitVec w) : feed poly c [] = c := rfl

theorem feed_cons (c : BitVec w) (b : Bool) (bits : List Bool) :
    feed poly c (b :: bits) = feed poly (lfsr poly (c ^^^ (BitVec.ofBool b).setWidth w)) bits :=
  rfl

theorem feed_append (c : BitVec w) (x y : List Bool) :
    feed poly c (x ++ y) = feed poly (feed poly c x) y := List.foldl_append

theorem feed_xor (a c : BitVec w) (bits : List Bool) :
    feed poly (a ^^^ c) bits = (lfsr poly)^[bits.length] a ^^^ feed poly c bits := by
  induction bits generalizing a c with
  | nil => rfl
  | cons b bits ih => rw [feed_cons, BitVec.xor_assoc, lfsr_xor, ih]; rfl

theorem feed_replicate_false (c : BitVec w) (n : ℕ) :
    feed poly c (List.replicate n false) = (lfsr poly)^[n] c := by
  induction n generalizing c with
  | zero => rfl
  | succ n ih =>
    have hbit : (BitVec.ofBool false).setWidth w = 0#w := by simp
    rw [List.replicate_succ, feed_cons, hbit, BitVec.xor_zero, ih]
    rfl

theorem getLsbD_leWord (bits : List Bool) (i : ℕ) :
    (leWord w bits).getLsbD i = (decide (i < w) && bits.getD i false) := by
  induction bits generalizing i with
  | nil => simp [leWord]
  | cons b bits ih =>
    simp only [leWord, BitVec.getLsbD_xor, BitVec.getLsbD_setWidth, BitVec.getLsbD_shiftLeft, ih,
      BitVec.getLsbD_ofBool]
    cases i with
    | zero => by_cases hw : 0 < w <;> simp [hw]
    | succ i =>
      by_cases hw : i + 1 < w
      · simp [hw, show i < w by omega]
      · simp [hw]

/-- A message that fits the register can be added to it as a word. -/
theorem feed_eq_iterate {bits : List Bool} (h : bits.length ≤ w) (c : BitVec w) :
    feed poly c bits = (lfsr poly)^[bits.length] (c ^^^ leWord w bits) := by
  induction bits generalizing c with
  | nil => simp [leWord]
  | cons b bits ih =>
    rw [List.length_cons] at h
    have hnext : lfsr poly (leWord w bits <<< 1) = leWord w bits := by
      have hclear := iterate_lfsr_clear poly (n := 1) (c := leWord w bits <<< 1)
        fun i hi => by simp [hi]
      rw [Function.iterate_one] at hclear
      rw [hclear]
      apply BitVec.eq_of_getLsbD_eq
      intro i hi
      simp only [BitVec.getLsbD_ushiftRight, BitVec.getLsbD_shiftLeft, getLsbD_leWord, hi,
        decide_true, Bool.true_and]
      by_cases hw : 1 + i < w
      · simp [hw, show i < w by omega]
      · simp [hw, show bits.length ≤ i by omega]
    rw [feed_cons, ih (by omega), leWord, ← BitVec.xor_assoc, List.length_cons,
      Function.iterate_succ_apply, lfsr_xor poly (c ^^^ _), hnext]

/-- A narrower register, kept in a wider one. -/
theorem lfsr_setWidth {v : ℕ} (hw : 0 < w) (hv : w ≤ v) (c : BitVec w) :
    lfsr (poly.setWidth v) (c.setWidth v) = (lfsr poly c).setWidth v := by
  unfold lfsr
  have hshift : c.setWidth v >>> 1 = (c >>> 1).setWidth v := by
    apply BitVec.eq_of_getLsbD_eq
    intro i hi
    simp only [BitVec.getLsbD_ushiftRight, BitVec.getLsbD_setWidth]
    by_cases hc : 1 + i < v
    · simp [hc, hi]
    · simp [hc, BitVec.getLsbD_of_ge c (1 + i) (by omega)]
  rw [BitVec.getLsbD_setWidth, hshift, decide_eq_true (by omega), Bool.true_and]
  cases c.getLsbD 0
  · rfl
  · exact (BitVec.setWidth_xor).symm

theorem iterate_lfsr_setWidth {v : ℕ} (hw : 0 < w) (hv : w ≤ v) (n : ℕ) (c : BitVec w) :
    (lfsr (poly.setWidth v))^[n] (c.setWidth v) = ((lfsr poly)^[n] c).setWidth v := by
  induction n generalizing c with
  | zero => rfl
  | succ n ih =>
    rw [Function.iterate_succ_apply, lfsr_setWidth poly hw hv, ih]
    rfl

theorem feed_setWidth {v : ℕ} (hw : 0 < w) (hv : w ≤ v) (c : BitVec w) (bits : List Bool) :
    feed (poly.setWidth v) (c.setWidth v) bits = (feed poly c bits).setWidth v := by
  induction bits generalizing c with
  | nil => rfl
  | cons b bits ih =>
    have hbit : (BitVec.ofBool b).setWidth v = ((BitVec.ofBool b).setWidth w).setWidth v := by
      apply BitVec.eq_of_getLsbD_eq
      intro i hi
      simp only [BitVec.getLsbD_setWidth, BitVec.getLsbD_ofBool, hi, decide_true, Bool.true_and]
      by_cases h0 : i = 0
      · simp [h0, hw]
      · simp [h0]
    rw [feed_cons, feed_cons, hbit, ← BitVec.setWidth_xor, lfsr_setWidth poly hw hv, ih]

section Bytes

def byteBits (b : UInt8) : List Bool := (List.range 8).map b.toBitVec.getLsbD

def dataBits (bytes : List UInt8) : List Bool := bytes.flatMap byteBits

@[simp] theorem byteBits_length (b : UInt8) : (byteBits b).length = 8 := by simp [byteBits]

@[simp] theorem dataBits_length (bytes : List UInt8) :
    (dataBits bytes).length = 8 * bytes.length := by
  induction bytes with
  | nil => rfl
  | cons b bytes ih =>
    change (byteBits b ++ dataBits bytes).length = _
    rw [List.length_append, ih, byteBits_length, List.length_cons]
    omega

theorem dataBits_append (x y : List UInt8) : dataBits (x ++ y) = dataBits x ++ dataBits y :=
  List.flatMap_append

theorem dataBits_replicate_zero (n : ℕ) :
    dataBits (List.replicate n 0) = List.replicate (8 * n) false := by
  induction n with
  | zero => rfl
  | succ n ih =>
    have hbyte : byteBits 0 = List.replicate 8 false := by decide
    rw [List.replicate_succ]
    change byteBits 0 ++ dataBits (List.replicate n 0) = _
    rw [ih, hbyte, List.replicate_append_replicate, Nat.mul_succ, Nat.add_comm]

theorem dataBits_drop (bytes : List UInt8) (k : ℕ) :
    dataBits (bytes.drop k) = (dataBits bytes).drop (8 * k) := by
  induction bytes generalizing k with
  | nil => simp [dataBits]
  | cons b bytes ih =>
    cases k with
    | zero => rfl
    | succ k =>
      change _ = (byteBits b ++ dataBits bytes).drop (8 * (k + 1))
      rw [List.drop_succ_cons, ih, Nat.mul_succ, Nat.add_comm, ← byteBits_length b,
        List.drop_length_add_append, byteBits_length]

theorem dataBits_take (bytes : List UInt8) (k : ℕ) :
    dataBits (bytes.take k) = (dataBits bytes).take (8 * k) := by
  have hall := congrArg dataBits (List.take_append_drop k bytes)
  rw [dataBits_append, dataBits_drop] at hall
  rw [← List.append_left_inj ((dataBits bytes).drop (8 * k)), hall, List.take_append_drop]

theorem getD_byteBits (b : UInt8) (i : ℕ) : (byteBits b).getD i false = b.toBitVec.getLsbD i := by
  by_cases hi : i < 8
  · rw [List.getD_eq_getElem _ _ (by simpa using hi)]
    simp [byteBits]
  · rw [List.getD_eq_default _ _ (by simpa using hi), BitVec.getLsbD_of_ge _ _ (by omega)]

theorem leWord_byteBits (b : UInt8) : leWord w (byteBits b) = b.toBitVec.setWidth w := by
  apply BitVec.eq_of_getLsbD_eq
  intro i hi
  rw [getLsbD_leWord, getD_byteBits, BitVec.getLsbD_setWidth]

theorem testBit_leNat (bytes : List UInt8) (i : ℕ) :
    (leNat bytes).testBit i = (dataBits bytes).getD i false := by
  induction bytes generalizing i with
  | nil => simp [leNat, dataBits]
  | cons b bytes ih =>
    have hb : b.toNat < 2 ^ 8 := b.toNat_lt
    rw [leNat, Nat.add_comm, show (256 : ℕ) = 2 ^ 8 by rfl, Nat.testBit_two_pow_mul_add _ hb]
    change _ = (byteBits b ++ dataBits bytes).getD i false
    by_cases hi : i < 8
    · rw [if_pos hi, List.getD_append _ _ _ _ (by simpa using hi), getD_byteBits]
      rfl
    · rw [if_neg hi, List.getD_append_right _ _ _ _ (by simpa using hi), byteBits_length, ih]

theorem leWord_dataBits (bytes : List UInt8) :
    leWord w (dataBits bytes) = BitVec.ofNat w (leNat bytes) := by
  apply BitVec.eq_of_getLsbD_eq
  intro i hi
  rw [getLsbD_leWord, BitVec.getLsbD_ofNat, testBit_leNat]

theorem byteBits_injective : Function.Injective byteBits := by
  intro a b h
  apply UInt8.toBitVec_inj.mp
  apply BitVec.eq_of_getLsbD_eq
  intro i _
  rw [← getD_byteBits, h, getD_byteBits]

theorem dataBits_injective : Function.Injective dataBits := by
  intro x
  induction x with
  | nil =>
    intro y h
    have hlen := congrArg List.length h
    rw [dataBits_length, dataBits_length] at hlen
    exact (List.length_eq_zero_iff.mp (by simpa using hlen.symm)).symm
  | cons a x ih =>
    intro y h
    cases y with
    | nil =>
      have hlen := congrArg List.length h
      rw [dataBits_length, dataBits_length, List.length_cons, List.length_nil] at hlen
      omega
    | cons b y =>
      have hparts := List.append_inj (show byteBits a ++ dataBits x = byteBits b ++ dataBits y from h)
        (by simp)
      rw [byteBits_injective hparts.1, ih hparts.2]

/-- The bits in which two byte strings differ lie within `n` consecutive ones. -/
def Burst (n : ℕ) (x y : List UInt8) : Prop :=
  ∃ start, ∀ i, (dataBits x)[i]? ≠ (dataBits y)[i]? → start ≤ i ∧ i < start + n

theorem Burst.window {n : ℕ} {x y : List UInt8} (h : Burst n x y) (k m : ℕ) :
    Burst n ((x.drop k).take m) ((y.drop k).take m) := by
  obtain ⟨start, hstart⟩ := h
  refine ⟨start - 8 * k, ?_⟩
  intro i hi
  have hne : (dataBits x)[8 * k + i]? ≠ (dataBits y)[8 * k + i]? := by
    intro heq
    apply hi
    rw [dataBits_take, dataBits_take, dataBits_drop, dataBits_drop, List.getElem?_take,
      List.getElem?_take, List.getElem?_drop, List.getElem?_drop, heq]
  have := hstart _ hne
  omega

theorem Burst.agree {n : ℕ} {x y : List UInt8} (h : Burst n x y) :
    ∃ start, (dataBits x).take start = (dataBits y).take start ∧
      (dataBits x).drop (start + n) = (dataBits y).drop (start + n) := by
  obtain ⟨start, hstart⟩ := h
  refine ⟨start, List.ext_getElem? ?_, List.ext_getElem? ?_⟩
  · intro i
    rw [List.getElem?_take, List.getElem?_take]
    split_ifs with hi
    · by_contra hne
      have := hstart i hne
      omega
    · rfl
  · intro i
    rw [List.getElem?_drop, List.getElem?_drop]
    by_contra hne
    have := hstart _ hne
    omega

end Bytes

section Injective

variable {poly}

/-- The top bit of the register tells whether a one fell out. -/
theorem lfsr_injective (h : poly.getLsbD (w - 1) = true) : Function.Injective (lfsr poly) := by
  have hw : 0 < w := by
    rcases Nat.eq_zero_or_pos w with rfl | hw
    · rw [BitVec.getLsbD_of_ge poly _ (Nat.zero_le _)] at h
      exact absurd h (by decide)
    · exact hw
  have htop (c : BitVec w) : (lfsr poly c).getLsbD (w - 1) = c.getLsbD 0 := by
    have hfar : c.getLsbD (1 + (w - 1)) = false := BitVec.getLsbD_of_ge c _ (by omega)
    unfold lfsr
    cases c.getLsbD 0 <;> simp [hfar, h]
  intro a b hab
  have h0 : a.getLsbD 0 = b.getLsbD 0 := by rw [← htop a, hab, htop b]
  have hrest : a >>> 1 = b >>> 1 := by
    unfold lfsr at hab
    rw [h0] at hab
    cases hb : b.getLsbD 0 <;> rw [hb] at hab
    · exact hab
    · have hx := congrArg (· ^^^ poly) hab
      simpa [xor_cancel_right] using hx
  apply BitVec.eq_of_getLsbD_eq
  intro i _
  rcases Nat.eq_zero_or_pos i with rfl | hi
  · exact h0
  · have hi' := congrArg (·.getLsbD (i - 1)) hrest
    simpa [show 1 + (i - 1) = i by omega] using hi'

theorem leWord_injective {x y : List Bool} (hlen : x.length = y.length) (hx : x.length ≤ w)
    (h : leWord w x = leWord w y) : x = y := by
  apply List.ext_getElem hlen
  intro i hi hi'
  have hbit := congrArg (·.getLsbD i) h
  simp only [getLsbD_leWord, show i < w by omega, decide_true, Bool.true_and] at hbit
  rwa [List.getD_eq_getElem _ _ hi, List.getD_eq_getElem _ _ hi'] at hbit

/-- Messages that differ in a window no wider than the register leave different registers. -/
theorem feed_window_ne (h : poly.getLsbD (w - 1) = true) {x y : List Bool}
    (hlen : x.length = y.length) (hx : x.length ≤ w) (hne : x ≠ y) (c : BitVec w)
    (before after : List Bool) :
    feed poly c (before ++ x ++ after) ≠ feed poly c (before ++ y ++ after) := by
  have hinj (n : ℕ) := (lfsr_injective h).iterate n
  have hy : y.length ≤ w := hlen ▸ hx
  have hstate (a b : BitVec w) (hab : feed poly a after = feed poly b after) : a = b := by
    rw [← BitVec.xor_zero (x := a), ← BitVec.xor_zero (x := b), feed_xor, feed_xor,
      BitVec.xor_left_inj] at hab
    exact hinj _ hab
  intro heq
  rw [feed_append, feed_append, feed_append, feed_append] at heq
  have hmid := hstate _ _ heq
  rw [feed_eq_iterate poly hx, feed_eq_iterate poly hy, hlen] at hmid
  exact hne (leWord_injective hlen hx ((BitVec.xor_right_inj _).mp (hinj _ hmid)))

/-- A burst no longer than the register changes it. -/
theorem feed_burst_ne (h : poly.getLsbD (w - 1) = true) {x y : List UInt8}
    (hlen : x.length = y.length) (hburst : Burst w x y) (hne : x ≠ y) (c : BitVec w) :
    feed poly c (dataBits x) ≠ feed poly c (dataBits y) := by
  have hbits : (dataBits x).length = (dataBits y).length := by
    rw [dataBits_length, dataBits_length, hlen]
  obtain ⟨start, hbefore, hafter⟩ := hburst.agree
  have hcut (bits : List Bool) :
      bits.take start ++ (bits.drop start).take w ++ bits.drop (start + w) = bits := by
    rw [← List.take_add, List.take_append_drop]
  have hmid : ((dataBits x).drop start).take w ≠ ((dataBits y).drop start).take w := by
    intro heq
    apply hne
    apply dataBits_injective
    rw [← hcut (dataBits x), ← hcut (dataBits y), hbefore, heq, hafter]
  rw [← hcut (dataBits x), ← hcut (dataBits y), hbefore, hafter]
  apply feed_window_ne h _ _ hmid
  · rw [List.length_take, List.length_take, List.length_drop, List.length_drop, hbits]
  · rw [List.length_take]
    omega

end Injective

end CSem
