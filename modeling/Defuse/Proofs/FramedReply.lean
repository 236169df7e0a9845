import Defuse.Lib.Leb128
import Defuse.Spec.Framing

/-! A message behind its length. `hadoop_rpc_receive_proto` takes five bytes before it knows
how many of them belong to the length, and copies the others to the message. -/

namespace Defuse

open CSem

/-! The operations of the two loops on numbers. -/

theorem low_group (value : UInt64) : (value &&& 0x7F).toUInt8.toNat = value.toNat % 128 := by
  rw [UInt64.toNat_toUInt8, UInt64.toNat_and, show (0x7F : UInt64).toNat = 2 ^ 7 - 1 from rfl,
    Nat.and_two_pow_sub_one_eq_mod]
  omega

theorem or_high_bit {byte : UInt8} (h : byte.toNat < 128) :
    (byte ||| 0x80).toNat = byte.toNat + 128 := by
  have hor := Nat.two_pow_add_eq_or_of_lt (i := 7) h 1
  rw [UInt8.toNat_or, show (0x80 : UInt8).toNat = 2 ^ 7 * 1 from rfl, Nat.or_comm, ← hor]
  omega

theorem high_bit_iff (byte : UInt8) : byte &&& 0x80 ≠ 0 ↔ 128 ≤ byte.toNat := by
  have hall : ∀ n : Fin 256, n.val &&& 128 = n.val / 128 * 128 := by decide +kernel
  have hand : (byte &&& 0x80).toNat = byte.toNat / 128 * 128 := by
    rw [UInt8.toNat_and]
    exact hall ⟨byte.toNat, byte.toNat_lt⟩
  rw [ne_eq, ← UInt8.toNat_inj, hand, show (0 : UInt8).toNat = 0 from rfl]
  have := byte.toNat_lt
  omega

theorem low_bits (byte : UInt8) : (byte &&& 0x7F).toUInt64.toNat = byte.toNat % 128 := by
  rw [UInt8.toNat_toUInt64, UInt8.toNat_and, show (0x7F : UInt8).toNat = 2 ^ 7 - 1 from rfl,
    Nat.and_two_pow_sub_one_eq_mod]

theorem or_group {value group : UInt64} {shift : ℕ} (hshift : shift < 64)
    (hvalue : value.toNat < 2 ^ shift) (hfit : group.toNat * 2 ^ shift < 2 ^ 64) :
    (value ||| (group <<< UInt64.ofNat shift)).toNat = value.toNat + group.toNat * 2 ^ shift := by
  have hor := Nat.two_pow_add_eq_or_of_lt hvalue group.toNat
  have hofNat : (UInt64.ofNat shift).toNat % 64 = shift := by
    rw [UInt64.toNat_ofNat', Nat.mod_eq_of_lt (show shift < 2 ^ 64 by omega), Nat.mod_eq_of_lt hshift]
  rw [UInt64.toNat_or, UInt64.toNat_shiftLeft, hofNat, Nat.shiftLeft_eq, Nat.mod_eq_of_lt hfit,
    Nat.or_comm, Nat.mul_comm, ← hor]
  omega

/-- What is written is the sequence of groups, when the buffer has room for it. -/
theorem encodeUnsignedVarint_eq (room : ℕ) (value : UInt64)
    (hroom : (leb128 value.toNat).length ≤ room) :
    encodeUnsignedVarint room value = .ok (leb128 value.toNat) := by
  induction room generalizing value with
  | zero =>
    have := leb128_length_pos value.toNat
    omega
  | succ room ih =>
    have hlow := low_group value
    have hnext := next_groups value
    have hzero : value >>> 7 ≠ 0 ↔ 128 ≤ value.toNat := by
      rw [ne_eq, ← UInt64.toNat_inj, hnext, show (0 : UInt64).toNat = 0 from rfl]
      omega
    unfold encodeUnsignedVarint
    by_cases hlarge : 128 ≤ value.toNat
    · have hbyte : (value &&& 0x7F).toUInt8 ||| 0x80 = UInt8.ofNat (value.toNat % 128 + 128) := by
        rw [← UInt8.toNat_inj, or_high_bit (by omega), hlow, UInt8.toNat_ofNat']
        omega
      rw [leb128_large hlarge, List.length_cons] at hroom
      rw [if_pos (hzero.mpr hlarge), ih (value >>> 7) (by rw [hnext]; omega), ok_bind, hbyte, hnext,
        leb128_large hlarge]
      rfl
    · have hbyte : (value &&& 0x7F).toUInt8 = UInt8.ofNat value.toNat := by
        rw [← UInt8.toNat_inj, hlow, UInt8.toNat_ofNat']
        omega
      rw [if_neg (mt hzero.mp hlarge), hbyte, leb128_small (by omega)]
      rfl

/-- The decoder reads the groups of a number and nothing behind them. `value` holds the groups
before, below the place of the next one. -/
theorem decodeLoop_leb128 (n : ℕ) (rest : List UInt8) (i shift : ℕ) (value : UInt64)
    (hshift : shift < 64) (hvalue : value.toNat < 2 ^ shift) (hfit : n * 2 ^ shift < 2 ^ 64) :
    ∃ v : UInt64, v.toNat = value.toNat + n * 2 ^ shift ∧
      decodeLoop (leb128 n ++ rest) i value shift = .ok (v, i + (leb128 n).length) := by
  induction n using Nat.strongRecOn generalizing i shift value with
  | ind n ih =>
    have hpow : 0 < 2 ^ shift := Nat.two_pow_pos shift
    rcases Nat.lt_or_ge n 128 with hsmall | hlarge
    · have hbyte : (UInt8.ofNat n).toNat = n :=
        UInt8.toNat_ofNat_of_lt' (show n < 256 by omega)
      have hgroup : ((UInt8.ofNat n) &&& 0x7F).toUInt64.toNat = n := by
        rw [low_bits, hbyte, Nat.mod_eq_of_lt hsmall]
      have hor := or_group hshift hvalue (by rw [hgroup]; exact hfit)
      rw [hgroup] at hor
      refine ⟨_, hor, ?_⟩
      rw [leb128_small hsmall, List.singleton_append, decodeLoop, if_neg (by omega)]
      rw [if_neg (by rw [high_bit_iff, hbyte]; omega)]
      rfl
    · have hbyte : (UInt8.ofNat (n % 128 + 128)).toNat = n % 128 + 128 :=
        UInt8.toNat_ofNat_of_lt' (show n % 128 + 128 < 256 by omega)
      have hgroup : ((UInt8.ofNat (n % 128 + 128)) &&& 0x7F).toUInt64.toNat = n % 128 := by
        rw [low_bits, hbyte]
        omega
      have hsplit : n * 2 ^ shift = n % 128 * 2 ^ shift + n / 128 * 2 ^ (shift + 7) := by
        have hdiv := Nat.mod_add_div n 128
        rw [pow_add]
        calc n * 2 ^ shift = (n % 128 + 128 * (n / 128)) * 2 ^ shift := by rw [hdiv]
          _ = n % 128 * 2 ^ shift + n / 128 * (2 ^ shift * 2 ^ 7) := by ring
      have hor := or_group hshift hvalue (by rw [hgroup]; omega)
      rw [hgroup] at hor
      have hone : 1 * 2 ^ (shift + 7) ≤ n / 128 * 2 ^ (shift + 7) :=
        Nat.mul_le_mul_right _ (by omega)
      have hshift' : shift + 7 < 64 := by
        rw [← Nat.pow_lt_pow_iff_right (a := 2) (by omega)]
        omega
      have hgroups : n % 128 * 2 ^ shift ≤ 127 * 2 ^ shift := Nat.mul_le_mul_right _ (by omega)
      have hpow7 : 2 ^ (shift + 7) = 128 * 2 ^ shift := by
        rw [pow_add]
        ring
      obtain ⟨v, hv, hrun⟩ := ih (n / 128) (by omega) (i + 1) (shift + 7) _ hshift'
        (by rw [hor]; omega) (by omega)
      refine ⟨v, by rw [hv, hor]; omega, ?_⟩
      rw [leb128_large hlarge, List.cons_append, decodeLoop, if_neg (by omega)]
      rw [if_pos (by rw [high_bit_iff, hbyte]; omega), hrun, List.length_cons]
      congr 2
      omega

theorem decodeUnsignedVarint_leb128 (value : UInt64) (rest : List UInt8) :
    decodeUnsignedVarint (leb128 value.toNat ++ rest) =
      .ok (value, (leb128 value.toNat).length) := by
  obtain ⟨v, hv, hrun⟩ := decodeLoop_leb128 value.toNat rest 0 0 0 (by omega) (by decide)
    (by have := value.toNat_lt; omega)
  have hval : v = value := by
    rw [← UInt64.toNat_inj, hv, show (0 : UInt64).toNat = 0 from rfl]
    omega
  rw [decodeUnsignedVarint, hrun, hval, Nat.zero_add]

/-- The message behind its length, in front of whatever follows, is what is unpacked, and what
follows is what is received next. -/
def FramedExactly (msg rest : List UInt8) (closed : Bool) : Prop :=
  ∃ length, encodeUnsignedVarint 10 (UInt64.ofNat msg.length) = .ok length ∧
    receiveProto (fun _ => none) ⟨length ++ (msg ++ rest), closed⟩ =
      .ok (some ⟨0, some msg, ⟨rest, closed⟩⟩)

variable {msg rest : List UInt8}

theorem recvfrom_of_le {incoming : Incoming} {n : ℕ} (hn : n ≤ MAX_RW_COUNT)
    (hall : max n 1 ≤ incoming.bytes.length ∨ incoming.closed = true) :
    incoming.recvfrom n =
      some (incoming.bytes.take n, ⟨incoming.bytes.drop n, incoming.closed⟩) := by
  unfold Incoming.recvfrom
  rw [Nat.min_eq_left hn, if_neg]
  rintro ⟨hless, hopen⟩
  rcases hall with hall | hclosed
  · exact absurd hless (not_lt.mpr hall)
  · exact Bool.noConfusion (hclosed.symm.trans hopen)

theorem length_of_recvfrom {incoming next : Incoming} {n : ℕ} {received : List UInt8}
    (h : incoming.recvfrom n = some (received, next)) : received.length ≤ MAX_RW_COUNT := by
  unfold Incoming.recvfrom at h
  dsimp only at h
  split_ifs at h
  cases h
  rw [List.length_take]
  omega

theorem toNat_length (hlen : msg.length < 2 ^ 32) :
    (UInt64.ofNat msg.length).toNat = msg.length :=
  UInt64.toNat_ofNat_of_lt' (show msg.length < 2 ^ 64 by omega)

theorem encode_length (hlen : msg.length < 2 ^ 32) :
    encodeUnsignedVarint 10 (UInt64.ofNat msg.length) = .ok (leb128 msg.length) ∧
      (leb128 msg.length).length ≤ 5 := by
  have hval := toNat_length hlen
  have hfive : (leb128 msg.length).length ≤ 5 := by
    have h := lt_leb128_length_iff (k := 5) (by omega) msg.length
    omega
  have hencode := encodeUnsignedVarint_eq 10 (UInt64.ofNat msg.length) (by rw [hval]; omega)
  rw [hval] at hencode
  exact ⟨hencode, hfive⟩

theorem decode_first (hlen : msg.length < 2 ^ 32) :
    decodeUnsignedVarint ((leb128 msg.length ++ (msg ++ rest)).take 5) =
      .ok (UInt64.ofNat msg.length, (leb128 msg.length).length) := by
  have hval := toNat_length hlen
  have hdecode := decodeUnsignedVarint_leb128 (UInt64.ofNat msg.length)
    ((msg ++ rest).take (5 - (leb128 msg.length).length))
  rw [hval] at hdecode
  rw [List.take_append, List.take_of_length_le (encode_length hlen).2, hdecode]

theorem receiveProto_short (hshort : msg.length < 4) (rest : List UInt8) (closed : Bool) :
    receiveProto (fun _ => none) ⟨leb128 msg.length ++ (msg ++ rest), closed⟩ = .ok none ∨
      receiveProto (fun _ => none) ⟨leb128 msg.length ++ (msg ++ rest), closed⟩ =
        .error .outOfBounds := by
  have hlen : msg.length < 2 ^ 32 := by omega
  have hval := toNat_length hlen
  have hone : (leb128 msg.length).length = 1 := by
    rw [leb128_small (by omega), List.length_singleton]
  unfold receiveProto
  cases hfirst : (⟨leb128 msg.length ++ (msg ++ rest), closed⟩ : Incoming).recvfrom 5 with
  | none => exact Or.inl rfl
  | some first =>
    right
    unfold Incoming.recvfrom at hfirst
    dsimp only at hfirst
    split_ifs at hfirst
    cases hfirst
    simp only [Nat.min_eq_left (show 5 ≤ MAX_RW_COUNT by decide), decode_first hlen, ok_bind, hval,
      hone]
    rw [if_pos (by omega)]

/-- A longer message is put together from the bytes taken with its length and what the second
receive gets. -/
theorem receiveProto_long (hlong : 4 ≤ msg.length) (hlen : msg.length < 2 ^ 32)
    (rest : List UInt8) (closed : Bool) {k : ℕ} (hk : k = 5 - (leb128 msg.length).length) :
    receiveProto (fun _ => none) ⟨leb128 msg.length ++ (msg ++ rest), closed⟩ =
      match (⟨msg.drop k ++ rest, closed⟩ : Incoming).recvfrom (msg.length - k) with
      | none => .ok none
      | some (received, incoming) =>
        if received.length < msg.length - k then .error .uninitialised
        else .ok (some ⟨0, some (msg.take k ++ received), incoming⟩) := by
  have hval := toNat_length hlen
  have hpos := leb128_length_pos msg.length
  have hfive := (encode_length hlen).2
  have htake : (leb128 msg.length ++ (msg ++ rest)).take 5 = leb128 msg.length ++ msg.take k := by
    rw [List.take_append, List.take_of_length_le hfive, ← hk,
      List.take_append_of_le_length (by omega)]
  have hdrop : (leb128 msg.length ++ (msg ++ rest)).drop 5 = msg.drop k ++ rest := by
    rw [List.drop_append, List.drop_eq_nil_of_le hfive, List.nil_append, ← hk,
      List.drop_append_of_le_length (by omega)]
  have hdecode := @decode_first msg rest hlen
  rw [htake] at hdecode
  have hfirst := @recvfrom_of_le ⟨leb128 msg.length ++ (msg ++ rest), closed⟩ 5 (by decide)
    (Or.inl (by dsimp only; rw [List.length_append, List.length_append]; omega))
  unfold receiveProto
  simp only [hfirst, htake, hdrop, hdecode, ok_bind, hval, ← hk]
  rw [if_neg (by omega), if_neg (by rw [List.length_append, List.length_take]; omega)]
  cases hsecond : (⟨msg.drop k ++ rest, closed⟩ : Incoming).recvfrom (msg.length - k) with
  | none => rfl
  | some second =>
    have hcap := length_of_recvfrom hsecond
    have hint : ¬ asInt second.1.length < 0 := by
      rw [asInt_of_le (by omega) (by unfold MAX_RW_COUNT at hcap; unfold INT_MAX; omega)]
      omega
    dsimp only
    rw [if_neg hint, List.drop_left]
    rfl

/-- Exactly the messages are received that go on behind the fifth byte, or end there with a byte
or the end of the connection behind them, and that one receive takes. -/
theorem framed_exactly_iff (msg rest : List UInt8) (closed : Bool) (hlen : msg.length < 2 ^ 32) :
    FramedExactly msg rest closed ↔
      (4 < msg.length ∨ msg.length = 4 ∧ (rest ≠ [] ∨ closed = true)) ∧
        msg.length ≤ MAX_RW_COUNT := by
  have hencode := (encode_length hlen).1
  have hfive := (encode_length hlen).2
  have hpos := leb128_length_pos msg.length
  obtain ⟨k, hk⟩ : ∃ k, k = 5 - (leb128 msg.length).length := ⟨_, rfl⟩
  constructor
  · rintro ⟨length, hlength, hreceive⟩
    rw [hencode] at hlength
    obtain rfl := Except.ok.inj hlength
    have hlong : 4 ≤ msg.length := by
      by_contra hshort
      rcases receiveProto_short (not_le.mp hshort) rest closed with h | h
      all_goals
        rw [h] at hreceive
        cases hreceive
    rw [receiveProto_long hlong hlen rest closed hk] at hreceive
    refine ⟨?_, ?_⟩
    · -- without a byte to come the second receive of a message of four bytes waits
      by_contra hnone
      push Not at hnone
      obtain ⟨hle, hnone⟩ := hnone
      obtain ⟨rfl, hopen⟩ := hnone (by omega)
      have hk4 : k = 4 := by
        rw [hk, leb128_small (by omega), List.length_singleton]
      have hwaits : (⟨msg.drop k ++ [], closed⟩ : Incoming).recvfrom (msg.length - k) = none := by
        unfold Incoming.recvfrom
        rw [if_pos]
        refine ⟨?_, Bool.eq_false_iff.mpr hopen⟩
        rw [List.append_nil, List.length_drop]
        omega
      rw [hwaits] at hreceive
      cases hreceive
    · by_contra hbig
      -- the length takes all five bytes, and the second receive gets less than the message
      have hk0 : k = 0 := by
        have h := lt_leb128_length_iff (k := 4) (by omega) msg.length
        unfold MAX_RW_COUNT at hbig
        omega
      subst hk0
      cases hsecond : (⟨msg.drop 0 ++ rest, closed⟩ : Incoming).recvfrom (msg.length - 0) with
      | none =>
        rw [hsecond] at hreceive
        cases hreceive
      | some second =>
        have hcap := length_of_recvfrom hsecond
        rw [hsecond] at hreceive
        dsimp only at hreceive
        rw [if_pos (by omega)] at hreceive
        cases hreceive
  · rintro ⟨hmore, hcap⟩
    have hlong : 4 ≤ msg.length := by omega
    have hbehind : (msg.drop k).length = msg.length - k := List.length_drop
    have hall : max (msg.length - k) 1 ≤ (msg.drop k ++ rest).length ∨ closed = true := by
      rw [List.length_append, hbehind]
      rcases hmore with hmore | ⟨hfour, hrest | hclosed⟩
      · left
        omega
      · have := List.length_pos_iff.mpr hrest
        left
        omega
      · exact Or.inr hclosed
    have hsecond := @recvfrom_of_le ⟨msg.drop k ++ rest, closed⟩ (msg.length - k) (by omega) hall
    refine ⟨leb128 msg.length, hencode, ?_⟩
    rw [receiveProto_long hlong hlen rest closed hk, hsecond]
    dsimp only
    rw [List.take_left' hbehind, List.drop_left' hbehind, hbehind, if_neg (lt_irrefl _),
      List.take_append_drop]

/-- Six bytes in front of two others. -/
theorem framed_exactly_six :
    receiveProto (fun _ => none) ⟨[6, 8, 0, 18, 2, 8, 1, 5, 5], false⟩ =
        .ok (some ⟨0, some [8, 0, 18, 2, 8, 1], ⟨[5, 5], false⟩⟩) ∧
      FramedExactly [8, 0, 18, 2, 8, 1] [5, 5] false :=
  ⟨by decide, (framed_exactly_iff [8, 0, 18, 2, 8, 1] [5, 5] false (by decide)).mpr (by decide)⟩

/-- A reply that holds nothing but the status `SUCCESS`, in front of two other bytes: four bytes
are copied to a buffer of two. -/
theorem not_framed_status :
    encodeUnsignedVarint 10 2 = .ok [2] ∧
      receiveProto (fun _ => none) ⟨[2, 8, 0, 5, 5], false⟩ = .error .outOfBounds ∧
      ¬ FramedExactly [8, 0] [5, 5] false := by
  refine ⟨by decide, by decide, ?_⟩
  rintro ⟨length, hlength, hreceive⟩
  rw [(@encode_length [8, 0] (by decide)).1] at hlength
  obtain rfl := Except.ok.inj hlength
  rcases @receiveProto_short [8, 0] (by decide) [5, 5] false with h | h
  all_goals
    rw [h] at hreceive
    cases hreceive

end Defuse
