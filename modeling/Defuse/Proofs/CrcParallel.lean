import Defuse.Proofs.CrcTables

/-! `crc32c_hw`: the operators for zero bytes, squared up over GF(2), join the registers of
three blocks that are taken in side by side. -/

namespace Defuse

open CSem

def zeroBits (n : ℕ) : List (BitVec 32) := (List.range 32).map fun i => (lfsr POLY)^[n] (1#32 <<< i)

theorem oneZeroBit_eq : oneZeroBit = zeroBits 1 := by decide +kernel

theorem bit_xor_rest (vec : BitVec 32) : (vec &&& 1#32) ^^^ (vec >>> 1 <<< 1) = vec := by
  have hlow : vec &&& 1#32 = (vec.setWidth 1).setWidth 32 := by
    apply BitVec.eq_of_toNat_eq
    rw [BitVec.toNat_and, BitVec.toNat_setWidth, BitVec.toNat_setWidth]
    simp only [BitVec.toNat_ofNat, Nat.reducePow, Nat.reduceMod, Nat.and_one_is_mod]
    omega
  rw [hlow, low_xor_high]

/-- The rows from the `k`-th on are multiplied by the bits from the `k`-th on. -/
theorem gf2MatrixTimes_rows (n k : ℕ) (vec sum : BitVec 32)
    (hfit : vec.toNat < 2 ^ (32 - k)) :
    gf2MatrixTimes sum ((List.range' k (32 - k)).map fun i => (lfsr POLY)^[n] (1#32 <<< i)) vec =
      .ok (sum ^^^ (lfsr POLY)^[n] (vec <<< k)) := by
  induction hm : 32 - k generalizing k vec sum with
  | zero =>
    have hvec : vec = 0#32 := by
      apply BitVec.eq_of_toNat_eq
      rw [hm] at hfit
      simpa using hfit
    subst hvec
    simp [gf2MatrixTimes, iterate_lfsr_zero]
  | succ m ih =>
    have hrest : (vec >>> 1).toNat < 2 ^ (32 - (k + 1)) := by
      rw [hm, Nat.pow_succ] at hfit
      rw [BitVec.toNat_ushiftRight, Nat.shiftRight_one, show 32 - (k + 1) = m by omega]
      omega
    have hsplit : (lfsr POLY)^[n] (vec <<< k) =
        (lfsr POLY)^[n] ((vec &&& 1#32) <<< k) ^^^ (lfsr POLY)^[n] (vec >>> 1 <<< (k + 1)) := by
      rw [← iterate_lfsr_xor, Nat.add_comm k, BitVec.shiftLeft_add, ← BitVec.shiftLeft_xor_distrib,
        bit_xor_rest]
    rw [List.range'_succ, List.map_cons, gf2MatrixTimes, ih (k + 1) _ _ hrest (by omega), hsplit]
    split_ifs with h0 hbit
    · subst h0
      simp [iterate_lfsr_zero]
    · obtain ⟨hand, -⟩ | ⟨hand, -⟩ := and_one_eq vec
      · exact absurd hand hbit
      · rw [show vec &&& 1#32 = 1#32 from hand, BitVec.xor_assoc]
    · rw [show vec &&& 1#32 = 0#32 from not_not.mp hbit, BitVec.zero_shiftLeft, iterate_lfsr_zero,
        BitVec.zero_xor]

theorem gf2MatrixTimes_eq (n : ℕ) (vec : BitVec 32) :
    gf2MatrixTimes 0 (zeroBits n) vec = .ok ((lfsr POLY)^[n] vec) := by
  have h := gf2MatrixTimes_rows n 0 vec 0 vec.isLt
  rwa [← List.range_eq_range', BitVec.shiftLeft_zero, show (0 : BitVec 32) = 0#32 from rfl,
    BitVec.zero_xor] at h

theorem gf2MatrixSquare_eq (n : ℕ) : gf2MatrixSquare (zeroBits n) = .ok (zeroBits (n * 2)) := by
  have h := mapM_ok (zeroBits n) fun row _ => gf2MatrixTimes_eq n row
  rw [gf2MatrixSquare, h, zeroBits, zeroBits, List.map_map]
  congr 2
  funext i
  rw [Function.comp_apply, ← Function.iterate_add_apply, Nat.mul_two]

theorem zerosLoop_eq (n len : ℕ) :
    zerosLoop (zeroBits n) len = .ok (zeroBits (n * 2 * 2 ^ len.log2)) := by
  induction len using Nat.strong_induction_on generalizing n with
  | _ len ih =>
    have hlog {m : ℕ} (hm : 2 ≤ m) : m.log2 = (m / 2).log2 + 1 := by
      rw [Nat.log2_def, if_pos hm]
    have hlog0 {m : ℕ} (hm : m < 2) : m.log2 = 0 := by rw [Nat.log2_def, if_neg (by omega)]
    rw [zerosLoop, gf2MatrixSquare_eq, ok_bind]
    by_cases hhalf : len / 2 = 0
    · rw [if_pos hhalf, hlog0 (by omega), Nat.pow_zero, Nat.mul_one]
      rfl
    · rw [if_neg hhalf, gf2MatrixSquare_eq, ok_bind, hlog (by omega)]
      by_cases hquarter : len / 2 / 2 = 0
      · rw [if_neg (not_not.mpr hquarter), hlog0 (by omega)]
        rfl
      · rw [if_pos hquarter, ih _ (by omega), hlog (m := len / 2) (by omega)]
        congr 2
        ring

/-- `crc32c_zeros_op` for any `len`: the operator of the largest power of two up to `len`, and
for zero that of one byte. -/
theorem crc32cZerosOp_eq (len : ℕ) :
    crc32cZerosOp len = .ok (zeroBits (8 * 2 ^ len.log2)) := by
  rw [crc32cZerosOp, oneZeroBit_eq, gf2MatrixSquare_eq, ok_bind, gf2MatrixSquare_eq, ok_bind,
    zerosLoop_eq]

theorem byte_xor_rest (c : BitVec 32) (k : ℕ) :
    ((c >>> k).setWidth 8).setWidth 32 <<< k ^^^ (c >>> (k + 8) <<< (k + 8)) =
      c >>> k <<< k := by
  have h := congrArg (fun c : BitVec 32 => c <<< k) (low_xor_high 8 (c >>> k))
  rw [BitVec.shiftLeft_xor_distrib, ← BitVec.shiftRight_add, ← BitVec.shiftLeft_add] at h
  rwa [Nat.add_comm 8 k] at h

theorem crc32cShift_eq (len : ℕ) (crc : BitVec 32) :
    crc32cShift len crc = .ok ((lfsr POLY)^[8 * 2 ^ len.log2] crc) := by
  have hentry (k : ℕ) (n : BitVec 8) : crc32cZeros len k n =
      .ok ((lfsr POLY)^[8 * 2 ^ len.log2] (n.setWidth 32 <<< (8 * k))) := by
    rw [crc32cZeros, crc32cZerosOp_eq, ok_bind, gf2MatrixTimes_eq]
  have hend : crc >>> 32 = 0#32 := BitVec.ushiftRight_eq_zero (by decide)
  have h0 := byte_xor_rest crc 0
  have h8 := byte_xor_rest crc 8
  have h16 := byte_xor_rest crc 16
  have h24 := byte_xor_rest crc 24
  simp only [Nat.reduceAdd, hend, BitVec.zero_shiftLeft, BitVec.xor_zero, BitVec.ushiftRight_zero,
    BitVec.shiftLeft_zero] at h0 h8 h16 h24
  simp only [crc32cShift, hentry, ok_bind, pure_eq_ok, ← iterate_lfsr_xor, BitVec.xor_assoc]
  simp only [Nat.reduceMul, BitVec.shiftLeft_zero, Nat.mul_zero, Nat.mul_one, h24, h16, h8, h0]

theorem takesByte_crc32b : TakesByte crc32b := by
  intro reg b
  rw [feed_byteBits, crc32b]
  simp

theorem takesWord_crc32q : TakesWord crc32q := by
  intro reg bytes hlen
  rw [← iterate_dataBits reg hlen, crc32q]
  simp

theorem load64_at {buf : List UInt8} {off : ℕ} (h : off + 8 ≤ buf.length) :
    load64 buf off = .ok (leNat ((buf.drop off).take 8)) := if_pos h

theorem feed_take_eight (reg : BitVec 32) (next : List UInt8) (n : ℕ) :
    feed POLY reg (dataBits (next.take (8 * (n + 1)))) =
      feed POLY (feed POLY reg (dataBits (next.take 8))) (dataBits ((next.drop 8).take (8 * n))) := by
  rw [← feed_append, ← dataBits_append, ← List.take_add, Nat.mul_succ, Nat.add_comm]

theorem threeWay_eq {size n : ℕ} {next : List UInt8} (hlen : 2 * size + 8 * n ≤ next.length)
    (reg0 reg1 reg2 : BitVec 32) :
    threeWay size n next (reg0.setWidth 64) (reg1.setWidth 64) (reg2.setWidth 64) =
      .ok ((feed POLY reg0 (dataBits (next.take (8 * n)))).setWidth 64,
        (feed POLY reg1 (dataBits ((next.drop size).take (8 * n)))).setWidth 64,
        (feed POLY reg2 (dataBits ((next.drop (2 * size)).take (8 * n)))).setWidth 64) := by
  induction n generalizing next reg0 reg1 reg2 with
  | zero => rfl
  | succ n ih =>
    have hword (off : ℕ) (hoff : off ≤ 2 * size) (reg : BitVec 32) :
        crc32q (reg.setWidth 64) (BitVec.ofNat 64 (leNat ((next.drop off).take 8))) =
          (feed POLY reg (dataBits ((next.drop off).take 8))).setWidth 64 := by
      apply takesWord_crc32q
      rw [List.length_take, List.length_drop]
      omega
    rw [threeWay, load64_at (by omega), ok_bind, load64_at (by omega), ok_bind,
      load64_at (by omega), ok_bind, hword 0 (by omega), hword size (by omega),
      hword (2 * size) le_rfl, ih (by rw [List.length_drop]; omega), feed_take_eight,
      feed_take_eight, feed_take_eight, List.drop_drop, List.drop_drop, List.drop_drop,
      List.drop_drop, Nat.add_comm 8, Nat.add_comm 8]
    rfl

theorem join_block (size : BlockSize) (reg : BitVec 32) {block : List UInt8}
    (hlen : block.length = size.bytes) :
    crc32cShift size.bytes reg = .ok (feed POLY reg (dataBits block) ^^^
      feed POLY 0#32 (dataBits block)) := by
  have hpow : 8 * 2 ^ size.bytes.log2 = (dataBits block).length := by
    rw [dataBits_length, hlen]
    cases size <;> decide +kernel
  have hfeed := feed_xor POLY reg 0#32 (dataBits block)
  rw [BitVec.xor_zero] at hfeed
  rw [crc32cShift_eq, hpow, hfeed, xor_cancel_right]

theorem threeBlocks_eq (size : BlockSize) (reg : BitVec 32) {buf : List UInt8}
    (hlen : size.bytes * 3 ≤ buf.length) :
    threeBlocks size (reg.setWidth 64) buf =
      .ok ((feed POLY reg (dataBits (buf.take (size.bytes * 3)))).setWidth 64) := by
  have height : 8 * (size.bytes / 8) = size.bytes := by cases size <;> rfl
  have hblock (off : ℕ) (hoff : off ≤ 2 * size.bytes) :
      ((buf.drop off).take size.bytes).length = size.bytes := by
    rw [List.length_take, List.length_drop]
    omega
  have hall : buf.take (size.bytes * 3) = buf.take size.bytes ++
      (buf.drop size.bytes).take size.bytes ++ (buf.drop (2 * size.bytes)).take size.bytes := by
    rw [← List.take_add, Nat.two_mul, ← List.take_add]
    congr 1
    omega
  have hzero : (0 : BitVec 64) = (0#32).setWidth 64 := rfl
  have hjoin (a b : BitVec 32) : (a ^^^ b).setWidth 64 ^^^ b.setWidth 64 = a.setWidth 64 := by
    rw [← BitVec.setWidth_xor, xor_cancel_right]
  rw [threeBlocks, hzero, threeWay_eq (by omega), height, ok_bind, hall, dataBits_append, dataBits_append,
    feed_append, feed_append]
  simp only [BitVec.setWidth_setWidth_of_le _ (show 32 ≤ 64 by decide), BitVec.setWidth_eq]
  rw [join_block size _ (hblock size.bytes (by omega)), ok_bind, hjoin,
    BitVec.setWidth_setWidth_of_le _ (by decide), BitVec.setWidth_eq,
    join_block size _ (hblock (2 * size.bytes) le_rfl), ok_bind, hjoin]
  rfl

theorem takes_blocks (size : BlockSize) (reg : BitVec 32) (buf : List UInt8) :
    ∃ left, blockLoop size (reg.setWidth 64) buf = .ok left ∧ Takes reg buf left := by
  induction hn : buf.length using Nat.strong_induction_on generalizing reg buf with
  | _ n ih =>
    rw [blockLoop]
    split_ifs with hlen
    · have hpos := size.bytes_pos
      rw [threeBlocks_eq size reg hlen, ok_bind]
      obtain ⟨left, hleft, htakes⟩ := ih (buf.drop (size.bytes * 3)).length
        (by rw [List.length_drop]; omega) (feed POLY reg (dataBits (buf.take (size.bytes * 3)))) _
        rfl
      exact ⟨left, hleft, takes_of_drop _ htakes⟩
    · exact ⟨_, rfl, takes_refl reg buf⟩

theorem crc32cHw_eq (crc : BitVec 32) (next : ℕ) (buf : List UInt8) :
    crc32cHw crc next buf = .ok (crcOf crc buf) := by
  obtain ⟨reg, hreg, hlong⟩ :=
    (takes_align takesByte_crc32b next (crc ^^^ 0xffffffff) buf).trans
  obtain ⟨long, hlongEq, htakes⟩ := takes_blocks .long reg
    (alignLoop crc32b next ((crc ^^^ 0xffffffff).setWidth 64) buf).2
  obtain ⟨reg, hreg', hshort⟩ := (hlong long htakes).trans
  obtain ⟨short, hshortEq, htakes⟩ := takes_blocks .short reg long.2
  obtain ⟨reg, hreg'', hwords⟩ := (hshort short htakes).trans
  obtain ⟨words, hwordsEq, htakes⟩ := takes_words takesWord_crc32q reg short.2
  have hlast := (hwords words htakes).last takesByte_crc32b
  unfold crc32cHw
  simp only [hreg, hlongEq, ok_bind, hreg', hshortEq, hreg'', hwordsEq, hlast]
  rfl

end Defuse
