import Defuse.Spec.Crc32c

/-! `crc32c_sw`: the tables hold what the shift register does with a byte that has 0 to 7 zero
bytes behind it, so that a word of eight bytes takes eight lookups. -/

namespace Defuse

open CSem

def crcOf (crc : BitVec 32) (bytes : List UInt8) : BitVec 32 :=
  feed POLY (crc ^^^ 0xffffffff) (dataBits bytes) ^^^ 0xffffffff

/-- A loop has taken the first bytes of `buf` into the register: what `crc` is then, and the
rest of the buffer. -/
def Takes (reg : BitVec 32) (buf : List UInt8) (left : BitVec 64 × List UInt8) : Prop :=
  ∃ taken, buf = taken ++ left.2 ∧ left.1 = (feed POLY reg (dataBits taken)).setWidth 64

theorem takes_refl (reg : BitVec 32) (buf : List UInt8) : Takes reg buf (reg.setWidth 64, buf) :=
  ⟨[], rfl, rfl⟩

theorem takes_of_drop {reg : BitVec 32} {buf : List UInt8} {left : BitVec 64 × List UInt8} (n : ℕ)
    (h : Takes (feed POLY reg (dataBits (buf.take n))) (buf.drop n) left) : Takes reg buf left := by
  obtain ⟨taken, hbuf, hreg⟩ := h
  refine ⟨buf.take n ++ taken, ?_, ?_⟩
  · rw [List.append_assoc, ← hbuf, List.take_append_drop]
  · rw [hreg, dataBits_append, feed_append]

theorem Takes.trans {reg : BitVec 32} {buf : List UInt8} {left : BitVec 64 × List UInt8}
    (h : Takes reg buf left) :
    ∃ reg', left.1 = BitVec.setWidth 64 reg' ∧ ∀ left', Takes reg' left.2 left' →
      Takes reg buf left' := by
  obtain ⟨taken, hbuf, hreg⟩ := h
  refine ⟨_, hreg, ?_⟩
  intro left' hleft
  have htake : buf.take taken.length = taken := by rw [hbuf, List.take_left]
  have hdrop : buf.drop taken.length = left.2 := by
    rw [hbuf, List.drop_left]
  exact takes_of_drop taken.length (htake.symm ▸ hdrop.symm ▸ hleft)

theorem and_one_eq (c : BitVec 32) : c &&& 1 = 0 ∧ c.getLsbD 0 = false ∨
    c &&& 1 = 1 ∧ c.getLsbD 0 = true := by
  have h : c &&& 1 = (BitVec.ofBool (c.getLsbD 0)).setWidth 32 :=
    BitVec.and_one_eq_setWidth_ofBool_getLsbD
  rw [h]
  cases c.getLsbD 0 <;> decide

theorem crcShift_eq : crcShift = lfsr POLY := by
  funext c
  unfold crcShift lfsr
  obtain ⟨hand, hbit⟩ | ⟨hand, hbit⟩ := and_one_eq c <;> rw [hand, hbit] <;> rfl

theorem iterate_eight (c : BitVec 32) :
    (lfsr POLY)^[8] c = crc32cTable 0 (c.setWidth 8) ^^^ (c >>> 8) := by
  rw [crc32cTable, crcShift_eq]
  exact iterate_lfsr_split POLY 8 c

theorem crc32cTable_eq (k : ℕ) (n : BitVec 8) :
    crc32cTable k n = (lfsr POLY)^[8 * (k + 1)] (n.setWidth 32) := by
  induction k with
  | zero => rw [crc32cTable, crcShift_eq]
  | succ k ih =>
    rw [crc32cTable, ← iterate_eight, ih, ← Function.iterate_add_apply, Nat.add_comm,
      ← Nat.mul_succ]

theorem feed_byteBits (reg : BitVec 32) (b : UInt8) :
    feed POLY reg (byteBits b) = (lfsr POLY)^[8] (reg ^^^ b.toBitVec.setWidth 32) := by
  rw [feed_eq_iterate POLY (by simp), leWord_byteBits, byteBits_length]

theorem swByte_eq (reg : BitVec 32) (b : UInt8) :
    swByte (reg.setWidth 64) b = (feed POLY reg (byteBits b)).setWidth 64 := by
  have hindex : (reg.setWidth 64 ^^^ b.toBitVec.setWidth 64).setWidth 8 =
      (reg ^^^ b.toBitVec.setWidth 32).setWidth 8 := by
    simp [BitVec.setWidth_xor]
  have hshift : (reg ^^^ b.toBitVec.setWidth 32) >>> 8 = reg >>> 8 := by
    have hb : b.toBitVec.setWidth 32 >>> 8 = 0#32 := by
      apply BitVec.eq_of_getLsbD_eq
      intro i hi
      simp
    rw [BitVec.ushiftRight_xor_distrib, hb, BitVec.xor_zero]
  have hwide : reg.setWidth 64 >>> 8 = (reg >>> 8).setWidth 64 := by
    apply BitVec.eq_of_toNat_eq
    simp
  rw [swByte, hindex, hwide, feed_byteBits, iterate_eight, hshift]
  exact BitVec.setWidth_xor.symm

theorem iterate_word (k : ℕ) (c : BitVec 64) :
    (lfsr (POLY.setWidth 64))^[8 * (k + 1)] c =
      (crc32cTable k (c.setWidth 8)).setWidth 64 ^^^
        (lfsr (POLY.setWidth 64))^[8 * k] (c >>> 8) := by
  have hlow : (c.setWidth 8).setWidth 64 = ((c.setWidth 8).setWidth 32).setWidth 64 := by simp
  rw [Nat.mul_succ, Function.iterate_add_apply, iterate_lfsr_split _ 8 c, iterate_lfsr_xor,
    ← Function.iterate_add_apply, ← Nat.mul_succ, hlow,
    iterate_lfsr_setWidth POLY (by decide) (by decide), crc32cTable_eq]

theorem swWord_eq (crc word : BitVec 64) :
    swWord crc word = (lfsr (POLY.setWidth 64))^[64] (crc ^^^ word) := by
  have hend : (crc ^^^ word) >>> 64 = 0#64 := BitVec.ushiftRight_eq_zero (by decide)
  have hword := iterate_word 7 (crc ^^^ word)
  rw [iterate_word 6, iterate_word 5, iterate_word 4, iterate_word 3, iterate_word 2,
    iterate_word 1, iterate_word 0] at hword
  simp only [← BitVec.shiftRight_add, Nat.reduceAdd, Nat.reduceMul, hend, Function.iterate_zero,
    id_eq, BitVec.xor_zero] at hword
  rw [hword]
  simp only [swWord, BitVec.setWidth_xor, BitVec.xor_assoc]

theorem iterate_dataBits (reg : BitVec 32) {bytes : List UInt8} (hlen : bytes.length = 8) :
    (lfsr (POLY.setWidth 64))^[64] (reg.setWidth 64 ^^^ BitVec.ofNat 64 (leNat bytes)) =
      (feed POLY reg (dataBits bytes)).setWidth 64 := by
  have hbits : (dataBits bytes).length = 64 := by rw [dataBits_length, hlen]
  rw [← feed_setWidth POLY (by decide) (by decide), feed_eq_iterate _ hbits.le, hbits,
    leWord_dataBits]

section Loops

variable {byteStep : BitVec 64 → UInt8 → BitVec 64} {wordStep : BitVec 64 → BitVec 64 → BitVec 64}

def TakesByte (byteStep : BitVec 64 → UInt8 → BitVec 64) : Prop :=
  ∀ (reg : BitVec 32) b,
    byteStep (reg.setWidth 64) b = (feed POLY reg (byteBits b)).setWidth 64

/-- `wordStep` takes in a word. -/
def TakesWord (wordStep : BitVec 64 → BitVec 64 → BitVec 64) : Prop :=
  ∀ (reg : BitVec 32) (bytes : List UInt8), bytes.length = 8 →
    wordStep (reg.setWidth 64) (BitVec.ofNat 64 (leNat bytes)) =
      (feed POLY reg (dataBits bytes)).setWidth 64

theorem takes_align (hbyte : TakesByte byteStep) (next : ℕ) (reg : BitVec 32)
    (buf : List UInt8) : Takes reg buf (alignLoop byteStep next (reg.setWidth 64) buf) := by
  induction buf generalizing next reg with
  | nil => exact takes_refl reg []
  | cons b buf ih =>
    rw [alignLoop]
    split_ifs with hnext
    · rw [hbyte]
      apply takes_of_drop 1
      have htake : dataBits ((b :: buf).take 1) = byteBits b := List.append_nil _
      rw [htake]
      exact ih (next + 1) _
    · exact takes_refl reg (b :: buf)

theorem load64_head {buf : List UInt8} (h : 8 ≤ buf.length) :
    load64 buf 0 = .ok (leNat (buf.take 8)) := by
  rw [load64, if_pos (by omega), List.drop_zero]

theorem takes_words (hword : TakesWord wordStep) (reg : BitVec 32) (buf : List UInt8) :
    ∃ left, wordLoop wordStep (reg.setWidth 64) buf = .ok left ∧ Takes reg buf left := by
  induction hn : buf.length using Nat.strong_induction_on generalizing reg buf with
  | _ n ih =>
    rw [wordLoop]
    split_ifs with hlen
    · have hshort : (buf.take 8).length = 8 := by rw [List.length_take]; omega
      rw [load64_head hlen, ok_bind, hword reg _ hshort]
      obtain ⟨left, hleft, htakes⟩ := ih (buf.drop 8).length
        (by rw [List.length_drop]; omega) (feed POLY reg (dataBits (buf.take 8))) _ rfl
      exact ⟨left, hleft, takes_of_drop 8 htakes⟩
    · exact ⟨_, rfl, takes_refl reg buf⟩

theorem foldl_bytes (hbyte : TakesByte byteStep) (reg : BitVec 32) (buf : List UInt8) :
    buf.foldl byteStep (reg.setWidth 64) = (feed POLY reg (dataBits buf)).setWidth 64 := by
  induction buf generalizing reg with
  | nil => rfl
  | cons b buf ih =>
    rw [List.foldl_cons, hbyte, ih, ← feed_append]
    rfl

theorem Takes.last (hbyte : TakesByte byteStep) {reg : BitVec 32} {buf : List UInt8}
    {left : BitVec 64 × List UInt8} (h : Takes reg buf left) :
    (left.2.foldl byteStep left.1).setWidth 32 = feed POLY reg (dataBits buf) := by
  obtain ⟨taken, hbuf, hreg⟩ := h
  rw [hreg, foldl_bytes hbyte, ← feed_append, ← dataBits_append, ← hbuf]
  simp

end Loops

theorem takesByte_swByte : TakesByte swByte := swByte_eq

theorem takesWord_swWord : TakesWord swWord := by
  intro reg bytes hlen
  rw [swWord_eq, iterate_dataBits reg hlen]

theorem crc32cSw_eq (crci : BitVec 32) (next : ℕ) (buf : List UInt8) :
    crc32cSw crci next buf = .ok (crcOf crci buf) := by
  obtain ⟨reg, hreg, hnext⟩ :=
    (takes_align takesByte_swByte next (crci ^^^ 0xffffffff) buf).trans
  obtain ⟨left, hleft, htakes⟩ := takes_words takesWord_swWord reg
    (alignLoop swByte next ((crci ^^^ 0xffffffff).setWidth 64) buf).2
  have hlast := (hnext left htakes).last takesByte_swByte
  unfold crc32cSw
  simp only [hreg, hleft, ok_bind, hlast]
  rfl

end Defuse
