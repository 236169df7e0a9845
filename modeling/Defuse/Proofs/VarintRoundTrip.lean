import Defuse.Lib.Codes
import Defuse.Proofs.FramedReply

/-! What `encode_unsigned_varint` writes is read back by `decode_unsigned_varint`, whatever
follows it, so that neither varints nor the frames of `PACK` need anything between them. -/

namespace Defuse

open CSem

theorem leb128_length_le_ten (value : UInt64) : (leb128 value.toNat).length ≤ 10 := by
  have hlength := lt_leb128_length_iff (k := 10) (by omega) value.toNat
  have hvalue := value.toNat_lt
  omega

/-- The bytes behind the ones written so far take what is written next, in the order in which it
is written. The counter does not wrap: there are ten groups at most. -/
theorem encodeLoop_eq (written free : List UInt8) (encoded : UInt8) (value : UInt64)
    (hencoded : encoded.toNat = written.length)
    (hfew : written.length + (leb128 value.toNat).length < 256) :
    encodeLoop (written ++ free) encoded value = (do
      let bytes ← encodeUnsignedVarint free.length value
      return (UInt8.ofNat (written.length + bytes.length),
        written ++ (bytes ++ free.drop bytes.length))) := by
  induction free generalizing written encoded value with
  | nil =>
    rw [encodeLoop, if_neg (by rw [List.append_nil]; omega)]
    rfl
  | cons old free ih =>
    have hroom : encoded.toNat < (written ++ old :: free).length := by
      rw [List.length_append, List.length_cons]
      omega
    have hset : ∀ byte, (written ++ old :: free).set encoded.toNat byte =
        (written ++ [byte]) ++ free := by
      intro byte
      rw [hencoded, List.set_append_right _ _ (le_refl _), Nat.sub_self, List.set_cons_zero,
        List.append_assoc, List.singleton_append]
    have hnext : (encoded + 1).toNat = written.length + 1 := by
      have hpos := leb128_length_pos value.toNat
      rw [UInt8.toNat_add, show (1 : UInt8).toNat = 1 from rfl]
      omega
    rw [encodeLoop, if_pos hroom, List.length_cons, encodeUnsignedVarint]
    by_cases hmore : value >>> 7 ≠ 0
    · have hlarge : 128 ≤ value.toNat := by
        rw [ne_eq, ← UInt64.toNat_inj, next_groups, show (0 : UInt64).toNat = 0 from rfl] at hmore
        omega
      rw [leb128_large hlarge, List.length_cons] at hfew
      rw [if_pos hmore, if_pos hmore, hset, ih (written ++ [_]) (encoded + 1) (value >>> 7)
        (by rw [hnext, List.length_append, List.length_singleton])
        (by rw [next_groups, List.length_append, List.length_singleton]; omega)]
      cases encodeUnsignedVarint free.length (value >>> 7) with
      | error fault => rfl
      | ok bytes => simp [Nat.add_comm, Nat.add_left_comm]
    · have hcount : encoded + 1 = UInt8.ofNat (written.length + 1) := by
        rw [← hnext, UInt8.ofNat_toNat]
      rw [if_neg hmore, if_neg hmore, hset, hcount, List.append_assoc]
      rfl

theorem encodeUnsignedVarintInto_eq (buffer : List UInt8) (value : UInt64) :
    encodeUnsignedVarintInto buffer value = (do
      let bytes ← encodeUnsignedVarint buffer.length value
      return (UInt8.ofNat bytes.length, bytes ++ buffer.drop bytes.length)) := by
  have hten := leb128_length_le_ten value
  have hloop := encodeLoop_eq [] buffer 0 value rfl (by rw [List.length_nil]; omega)
  simp only [List.length_nil, Nat.zero_add, List.nil_append] at hloop
  exact hloop

/-- Into a buffer with room for ten bytes, whatever it held, `bytes` is written for `value`. Their
number is returned and the rest of the buffer is left alone. -/
def Encodes (value : UInt64) (bytes : List UInt8) : Prop :=
  ∀ buffer : List UInt8, 10 ≤ buffer.length →
    ∃ encoded : UInt8, encoded.toNat = bytes.length ∧
      encodeUnsignedVarintInto buffer value = .ok (encoded, bytes ++ buffer.drop bytes.length)

theorem encodes_leb128 (value : UInt64) : Encodes value (leb128 value.toNat) := by
  intro buffer hroom
  have hten := leb128_length_le_ten value
  refine ⟨UInt8.ofNat (leb128 value.toNat).length, ?_, ?_⟩
  · exact UInt8.toNat_ofNat_of_lt' (show (leb128 value.toNat).length < 256 by omega)
  · rw [encodeUnsignedVarintInto_eq, encodeUnsignedVarint_eq buffer.length value (by omega)]
    rfl

theorem Encodes.eq_leb128 {value : UInt64} {bytes : List UInt8} (h : Encodes value bytes) :
    bytes = leb128 value.toNat := by
  obtain ⟨encoded, hencoded, hrun⟩ := h (List.replicate 10 0) (by decide)
  obtain ⟨encoded', hencoded', hrun'⟩ := encodes_leb128 value (List.replicate 10 0) (by decide)
  rw [hrun] at hrun'
  obtain ⟨hcount, hbuffer⟩ := Prod.mk.inj (Except.ok.inj hrun')
  have hlength : bytes.length = (leb128 value.toNat).length := by
    rw [← hencoded, hcount, hencoded']
  exact (List.append_inj hbuffer hlength).1

theorem decode_encoded {value : UInt64} {bytes : List UInt8} (h : Encodes value bytes)
    (rest : List UInt8) : decodeUnsignedVarint (bytes ++ rest) = .ok (value, bytes.length) := by
  rw [h.eq_leb128, decodeUnsignedVarint_leb128]

theorem encodes_selfDelimiting : SelfDelimiting Encodes :=
  selfDelimiting_of_decode decodeUnsignedVarint fun _ _ h => decode_encoded h

/-! Frames. -/

variable {msg frame : List UInt8}

/-- A frame is built for exactly the messages that an `uint32_t` can count together with their
length. For any other message `buf` is too small for what is packed into it. -/
theorem pack_eq (lenbuf : Fin 10 → UInt8) (msg : List UInt8) :
    pack lenbuf msg =
      if (leb128 msg.length).length + msg.length < 2 ^ 32 then
        .ok (UInt32.ofNat ((leb128 msg.length).length + msg.length), leb128 msg.length ++ msg)
      else .error .outOfBounds := by
  have hlen : (UInt32.ofNat msg.length).toNat = msg.length % 2 ^ 32 := UInt32.toNat_ofNat'
  obtain ⟨lenlen, hlenlen, hencode⟩ :=
    encodes_leb128 (UInt32.ofNat msg.length).toUInt64 (List.ofFn lenbuf)
      (by rw [List.length_ofFn])
  have hten := leb128_length_le_ten (UInt32.ofNat msg.length).toUInt64
  rw [UInt32.toNat_toUInt64, hlen] at hlenlen hencode hten
  have hallocated : (lenlen.toUInt32 + UInt32.ofNat msg.length).toNat =
      (lenlen.toNat + msg.length % 2 ^ 32) % 2 ^ 32 := by
    rw [UInt32.toNat_add, UInt8.toNat_toUInt32, hlen]
  unfold pack
  simp only [hencode, ok_bind, hallocated]
  by_cases hcut : msg.length < 2 ^ 32
  · rw [Nat.mod_eq_of_lt hcut] at hlenlen hten ⊢
    by_cases hfits : (leb128 msg.length).length + msg.length < 2 ^ 32
    · have hframe : UInt32.ofNat msg.length + lenlen.toUInt32 =
          UInt32.ofNat ((leb128 msg.length).length + msg.length) := by
        rw [← UInt32.toNat_inj, UInt32.add_comm, hallocated, UInt32.toNat_ofNat',
          Nat.mod_eq_of_lt hcut, hlenlen]
      rw [if_pos hfits, if_neg (by omega), hframe, List.take_left' hlenlen.symm]
      rfl
    · rw [if_neg hfits, if_pos (by omega)]
  · rw [if_pos (by omega), if_neg (by omega)]

def Packs (msg frame : List UInt8) : Prop :=
  ∃ lenbuf len, pack lenbuf msg = .ok (len, frame)

theorem packs_iff : Packs msg frame ↔
    (leb128 msg.length).length + msg.length < 2 ^ 32 ∧ frame = leb128 msg.length ++ msg := by
  unfold Packs
  simp only [pack_eq]
  constructor
  · intro hpack
    obtain ⟨-, len, hpack⟩ := hpack
    split_ifs at hpack with hfits
    exact ⟨hfits, (Prod.mk.inj (Except.ok.inj hpack)).2.symm⟩
  · intro hframe
    obtain ⟨hfits, rfl⟩ := hframe
    exact ⟨fun _ => 0, _, if_pos hfits⟩

def EncodesLength (n : ℕ) (bytes : List UInt8) : Prop :=
  ∃ value : UInt64, value.toNat = n ∧ Encodes value bytes

theorem encodesLength_selfDelimiting : SelfDelimiting EncodesLength := by
  intro n n' v w hv hw r s heq
  obtain ⟨value, hn, hencodes⟩ := hv
  obtain ⟨value', hn', hencodes'⟩ := hw
  obtain ⟨hvalue, hrest⟩ := encodes_selfDelimiting hencodes hencodes' heq
  exact ⟨by rw [← hn, ← hn', hvalue], hrest⟩

theorem Packs.encodesLength (h : Packs msg frame) :
    ∃ bytes, EncodesLength msg.length bytes ∧ frame = bytes ++ msg := by
  obtain ⟨hfits, hframe⟩ := packs_iff.mp h
  have hval : (UInt64.ofNat msg.length).toNat = msg.length := toNat_length (by omega)
  have hencodes := encodes_leb128 (UInt64.ofNat msg.length)
  rw [hval] at hencodes
  exact ⟨leb128 msg.length, ⟨_, hval, hencodes⟩, hframe⟩

theorem packs_selfDelimiting : SelfDelimiting Packs := by
  intro msg msg' frame frame' h h' r s heq
  exact encodesLength_selfDelimiting.framed h.encodesLength h'.encodesLength heq

theorem Packs.ne_nil (h : Packs msg frame) : frame ≠ [] := by
  have hpos := leb128_length_pos msg.length
  rw [(packs_iff.mp h).2]
  intro hnil
  rw [(List.append_eq_nil_iff.mp hnil).1, List.length_nil] at hpos
  omega

/-- A varint takes one to ten bytes, and is read back with whatever follows it. So no varint is
a proper initial part of another. `PACK` builds the varint of the length and the message behind
it, for every message that an `uint32_t` can count so; a frame is told apart from whatever
follows it, and a stream of frames has one way only to be split. -/
theorem varint_round_trip :
    (∀ value : UInt64, ∃ bytes, Encodes value bytes ∧ 1 ≤ bytes.length ∧ bytes.length ≤ 10 ∧
      ∀ rest, decodeUnsignedVarint (bytes ++ rest) = .ok (value, bytes.length)) ∧
    (∀ value value' bytes bytes', Encodes value bytes → Encodes value' bytes' →
      bytes <+: bytes' → bytes = bytes') ∧
    (∀ lenbuf msg bytes, Encodes (UInt64.ofNat msg.length) bytes →
      pack lenbuf msg =
        if (bytes ++ msg).length < 2 ^ 32 then
          .ok (UInt32.ofNat (bytes ++ msg).length, bytes ++ msg)
        else .error .outOfBounds) ∧
    (∀ msg msg' frame frame', Packs msg frame → Packs msg' frame' →
      ∀ rest rest', frame ++ rest = frame' ++ rest' → msg = msg' ∧ rest = rest') ∧
    ∀ msgs msgs' frames frames', List.Forall₂ Packs msgs frames →
      List.Forall₂ Packs msgs' frames' → frames.flatten = frames'.flatten → msgs = msgs' := by
  refine ⟨?_, ?_, ?_, ?_, ?_⟩
  · intro value
    have hencodes := encodes_leb128 value
    exact ⟨leb128 value.toNat, hencodes, leb128_length_pos value.toNat,
      leb128_length_le_ten value, decode_encoded hencodes⟩
  · intro value value' bytes bytes' h h' hinitial
    exact encodes_selfDelimiting.eq_of_initial h h' hinitial
  · intro lenbuf msg bytes hencodes
    rw [pack_eq, List.length_append]
    by_cases hlen : msg.length < 2 ^ 32
    · rw [hencodes.eq_leb128, toNat_length hlen]
    · rw [if_neg (by omega), if_neg (by omega)]
  · intro msg msg' frame frame' h h' rest rest' heq
    exact packs_selfDelimiting h h' heq
  · intro msgs msgs' frames frames' h h' heq
    exact packs_selfDelimiting.flatten_inj (fun _ _ => Packs.ne_nil) h h' heq

/-- Five bytes that are two frames, and the frames of no other messages. -/
theorem varint_round_trip_two_frames :
    List.Forall₂ Packs [[8, 0], [5]] [[2, 8, 0], [1, 5]] ∧
      ∀ msgs frames, List.Forall₂ Packs msgs frames → frames.flatten = [2, 8, 0, 1, 5] →
        msgs = [[8, 0], [5]] := by
  have hframes : List.Forall₂ Packs [[8, 0], [5]] [[2, 8, 0], [1, 5]] :=
    .cons ⟨fun _ => 0, 3, by decide +kernel⟩ (.cons ⟨fun _ => 0, 2, by decide +kernel⟩ .nil)
  refine ⟨hframes, ?_⟩
  intro msgs frames h hflatten
  exact varint_round_trip.2.2.2.2 msgs _ frames _ h hframes hflatten

end Defuse
