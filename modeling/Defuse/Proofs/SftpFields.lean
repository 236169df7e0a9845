import Defuse.Spec.SftpBuffer

/-! What the getters of `sshfs_wrap.c` read from a received message: they decode the fields of
the protocol, and never read outside the message. -/

namespace Defuse.Sshfs

open CSem

def SftpBuffer.unread (buf : SftpBuffer) : List UInt8 :=
  ((buf.p.take buf.size).drop buf.len).filterMap id

/-- A message as `do_read` leaves it, read up to `len`. -/
def SftpBuffer.Received (buf : SftpBuffer) : Prop :=
  buf.len ≤ buf.size ∧ buf.size + 1 < 2 ^ 32 ∧
    ∃ bytes, bytes.length = buf.size ∧ buf.p.Holds 0 bytes

def message : Input SftpBuffer UInt8 := ⟨SftpBuffer.Received, SftpBuffer.unread⟩

theorem filled_received (bytes : List UInt8) (h : bytes.length + 1 < 2 ^ 32) :
    (SftpBuffer.filled bytes).Received :=
  ⟨Nat.zero_le _, h, bytes, rfl, [], [], by simp [SftpBuffer.filled], rfl⟩

@[simp] theorem filled_unread (bytes : List UInt8) : (SftpBuffer.filled bytes).unread = bytes := by
  rw [SftpBuffer.unread, SftpBuffer.filled]
  dsimp only
  rw [List.drop_zero, List.take_of_length_le (by rw [List.length_map]), List.filterMap_map]
  exact List.filterMap_some

section Getters

variable {buf : SftpBuffer}

theorem SftpBuffer.Received.bytes (h : buf.Received) :
    ∃ (bytes : List UInt8) (post : Cells), bytes.length = buf.size ∧ buf.p = bytes.map some ++ post ∧
      ∀ k, { buf with len := k }.unread = bytes.drop k := by
  obtain ⟨-, -, bytes, hbytes, pre, post, hp, hpre⟩ := h
  obtain rfl := List.eq_nil_of_length_eq_zero hpre
  rw [List.nil_append] at hp
  refine ⟨bytes, post, hbytes, hp, ?_⟩
  intro k
  rw [SftpBuffer.unread]
  dsimp only
  rw [hp, List.take_left' (by rw [List.length_map, hbytes]), ← List.map_drop, List.filterMap_map]
  exact List.filterMap_some

theorem SftpBuffer.Received.unread_holds (h : buf.Received) :
    buf.p.Holds buf.len buf.unread ∧ buf.len + buf.unread.length = buf.size := by
  obtain ⟨bytes, post, hbytes, hp, hunread⟩ := h.bytes
  have hlen := h.1
  rw [hunread buf.len, List.length_drop]
  refine ⟨⟨(bytes.take buf.len).map some, post, ?_, ?_⟩, by omega⟩
  · rw [hp, ← List.map_append, List.take_append_drop]
  · rw [List.length_map, List.length_take]
    omega

theorem SftpBuffer.Received.advance (h : buf.Received) {a b : List UInt8}
    (hunread : buf.unread = a ++ b) :
    { buf with len := buf.len + a.length }.Received ∧
      { buf with len := buf.len + a.length }.unread = b := by
  obtain ⟨-, hlength⟩ := h.unread_holds
  obtain ⟨bytes, post, -, -, hdrop⟩ := h.bytes
  rw [hunread, List.length_append] at hlength
  rw [hdrop buf.len] at hunread
  refine ⟨⟨by dsimp only; omega, h.2.1, h.2.2⟩, ?_⟩
  rw [hdrop, ← List.drop_drop, hunread, List.drop_left]

theorem decodes_mem {n : ℕ} (hn : n < 2 ^ 32) :
    Decodes message (· = -1) (bufGetMem n) fun bytes w => bytes.length = n ∧ w = bytes := by
  intro buf hbuf
  obtain ⟨hholds, hlength⟩ := hbuf.unread_holds
  have hsize : buf.len + buf.unread.length + 1 < 2 ^ 32 := by
    rw [hlength]
    exact hbuf.2.1
  have hwrap : (buf.len + n) % 2 ^ 64 = buf.len + n := Nat.mod_eq_of_lt (by omega)
  unfold Proc.Ends bufGetMem
  rw [hwrap]
  by_cases hfit : buf.len + n > buf.size
  · rw [if_pos hfit]
    refine ⟨_, _, rfl, hbuf, rfl, ?_⟩
    intro bytes w hw hstart
    obtain ⟨hbytes, rfl⟩ := hw
    have := hstart.length_le
    change _ ≤ buf.unread.length at this
    omega
  · obtain ⟨a, b, hab, ha⟩ : ∃ a b, buf.unread = a ++ b ∧ a.length = n :=
      ⟨_, _, (List.take_append_drop n buf.unread).symm, by rw [List.length_take]; omega⟩
    obtain ⟨hreceived, hrest⟩ := hbuf.advance hab
    rw [hab] at hholds
    have hload := hholds.load
    rw [ha] at hload hreceived hrest
    rw [if_neg hfit, hload]
    exact ⟨_, _, rfl, hreceived, a, ⟨ha, rfl⟩, hab.trans (congrArg (a ++ ·) hrest.symm)⟩

theorem selfDelimiting_mem (n : ℕ) :
    SelfDelimiting fun bytes w : List UInt8 => bytes.length = n ∧ w = bytes := by
  intro a b v w hv hw r s heq
  obtain ⟨ha, rfl⟩ := hv
  obtain ⟨hb, rfl⟩ := hw
  exact List.append_inj heq (ha.trans hb.symm)

end Getters

theorem selfDelimiting_of_mem {α : Type} {n : ℕ} {enc : α → List UInt8}
    (hlength : ∀ a, (enc a).length = n) (hinj : Function.Injective enc) :
    SelfDelimiting fun a w => w = enc a := by
  intro a b v w hv hw r s heq
  rw [hv, hw] at heq
  obtain ⟨hword, hrest⟩ := List.append_inj heq ((hlength a).trans (hlength b).symm)
  exact ⟨hinj hword, hrest⟩

section Numbers

def word8 (val : UInt8) : List UInt8 := [val]

def word32 (val : UInt32) : List UInt8 := beBytes 4 val.toNat

def word64 (val : UInt64) : List UInt8 := beBytes 8 val.toNat

@[simp] theorem word32_length (val : UInt32) : (word32 val).length = 4 := beBytes_length 4 _

theorem word32_ofNat {n : ℕ} : word32 (UInt32.ofNat n) = beBytes 4 (n % 2 ^ 32) := by
  rw [word32, UInt32.toNat_ofNat']

theorem ofNat_beNat_word32 (val : UInt32) : UInt32.ofNat (beNat (word32 val)) = val := by
  have hlt : val.toNat < 256 ^ 4 := val.toNat_lt
  rw [word32, beNat_beBytes, Nat.mod_eq_of_lt hlt, UInt32.ofNat_toNat]

theorem word32_beNat {bytes : List UInt8} (h : bytes.length = 4) :
    word32 (UInt32.ofNat (beNat bytes)) = bytes := by
  have hlt : beNat bytes < 2 ^ 32 := by
    have := beNat_lt bytes
    rwa [h] at this
  rw [word32_ofNat, Nat.mod_eq_of_lt hlt]
  have hback := beBytes_beNat bytes
  rwa [h] at hback

theorem selfDelimiting_word8 : SelfDelimiting fun val w => w = word8 val :=
  selfDelimiting_of_mem (fun _ => rfl) fun _ _ h => (List.cons.inj h).1

theorem selfDelimiting_word32 : SelfDelimiting fun val w => w = word32 val :=
  selfDelimiting_of_mem word32_length fun a b h => by
    rw [← ofNat_beNat_word32 a, h, ofNat_beNat_word32]

theorem word64_length (val : UInt64) : (word64 val).length = 8 := beBytes_length 8 _

theorem selfDelimiting_word64 : SelfDelimiting fun val w => w = word64 val := by
  apply selfDelimiting_of_mem word64_length
  intro a b h
  have hlt (val : UInt64) : val.toNat < 256 ^ 8 := val.toNat_lt
  have hnat := congrArg beNat h
  rw [word64, word64, beNat_beBytes, beNat_beBytes, Nat.mod_eq_of_lt (hlt a),
    Nat.mod_eq_of_lt (hlt b)] at hnat
  exact UInt64.toNat_inj.mp hnat

theorem word64_halves (val : UInt64) :
    word64 val = word32 (val >>> 32).toUInt32 ++ word32 (val &&& 0xffffffff).toUInt32 := by
  have hhigh : (val >>> 32).toUInt32.toNat = val.toNat / 256 ^ 4 % 256 ^ 4 := by
    rw [UInt64.toNat_toUInt32, UInt64.toNat_shiftRight, Nat.shiftRight_eq_div_pow]
    rfl
  have hlow : (val &&& 0xffffffff).toUInt32.toNat = val.toNat % 256 ^ 4 := by
    rw [UInt64.toNat_toUInt32, UInt64.toNat_and]
    change (val.toNat &&& (2 ^ 32 - 1)) % 2 ^ 32 = _
    rw [Nat.and_two_pow_sub_one_eq_mod, Nat.mod_mod]
    rfl
  rw [word32, word32, hhigh, hlow, beBytes_mod, beBytes_mod]
  exact beBytes_add 4 4 val.toNat

theorem word64_join (val1 val2 : UInt32) :
    word64 ((val1.toUInt64 <<< 32) + val2.toUInt64) = word32 val1 ++ word32 val2 := by
  have h1 := val1.toNat_lt
  have h2 := val2.toNat_lt
  have hnat : ((val1.toUInt64 <<< 32) + val2.toUInt64).toNat = val1.toNat * 256 ^ 4 + val2.toNat := by
    rw [UInt64.toNat_add, UInt64.toNat_shiftLeft, UInt32.toNat_toUInt64, UInt32.toNat_toUInt64,
      Nat.shiftLeft_eq]
    change (val1.toNat * 2 ^ 32 % 2 ^ 64 + val2.toNat) % 2 ^ 64 = _
    omega
  have hhigh : (val1.toNat * 256 ^ 4 + val2.toNat) / 256 ^ 4 = val1.toNat := by omega
  have hlow : (val1.toNat * 256 ^ 4 + val2.toNat) % 256 ^ 4 = val2.toNat := by omega
  rw [word64, hnat, beBytes_add 4 4, hhigh, ← beBytes_mod 4 (_ + _), hlow]
  rfl

theorem decodes_uint8 : Decodes message (· = -1) bufGetUint8 fun val w => w = word8 val := by
  apply ((decodes_mem (by decide)).bind (selfDelimiting_mem 1) fun nval => decodes_pure _).congr
  intro val w
  constructor
  · intro h
    obtain ⟨nval, u, v, ⟨hlen, rfl⟩, ⟨rfl, rfl⟩, rfl⟩ := h
    obtain ⟨b, rfl⟩ := List.length_eq_one_iff.mp hlen
    simp [word8, beNat, leNat]
  · intro h
    exact ⟨[val], [val], [], ⟨rfl, rfl⟩, ⟨by simp [beNat, leNat], rfl⟩, by rw [h]; rfl⟩

theorem decodes_uint32 : Decodes message (· = -1) bufGetUint32 fun val w => w = word32 val := by
  apply ((decodes_mem (by decide)).bind (selfDelimiting_mem 4) fun nval => decodes_pure _).congr
  intro val w
  constructor
  · intro h
    obtain ⟨nval, u, v, ⟨hlen, rfl⟩, ⟨rfl, rfl⟩, rfl⟩ := h
    rw [word32_beNat hlen, List.append_nil]
  · intro h
    exact ⟨word32 val, word32 val, [], ⟨word32_length val, rfl⟩, ⟨(ofNat_beNat_word32 val).symm, rfl⟩,
      by rw [h, List.append_nil]⟩

theorem decodes_uint64 : Decodes message (· = -1) bufGetUint64 fun val w => w = word64 val := by
  apply (decodes_uint32.bind selfDelimiting_word32 fun val1 =>
    decodes_uint32.bind selfDelimiting_word32 fun val2 => decodes_pure _).congr
  intro val w
  constructor
  · intro h
    obtain ⟨val1, u, v, rfl, ⟨val2, u', v', rfl, ⟨rfl, rfl⟩, rfl⟩, rfl⟩ := h
    rw [word64_join, List.append_nil]
  · intro h
    have hjoin := word64_join (val >>> 32).toUInt32 (val &&& 0xffffffff).toUInt32
    rw [← word64_halves] at hjoin
    have hval := (selfDelimiting_word64 rfl rfl (congrArg (· ++ []) hjoin.symm)).1
    exact ⟨(val >>> 32).toUInt32, _, _, rfl, ⟨(val &&& 0xffffffff).toUInt32, _, [], rfl, ⟨hval, rfl⟩, rfl⟩,
      by rw [h, List.append_nil, word64_halves]⟩

end Numbers

section Data

def wordData (bytes : List UInt8) : List UInt8 := beBytes 4 bytes.length ++ bytes

def IsData (bytes w : List UInt8) : Prop := bytes.length < 2 ^ 32 ∧ w = wordData bytes

theorem wordData_eq {bytes : List UInt8} (h : bytes.length < 2 ^ 32) :
    wordData bytes = word32 (UInt32.ofNat bytes.length) ++ bytes := by
  rw [wordData, word32_ofNat, Nat.mod_eq_of_lt h]

theorem selfDelimiting_data : SelfDelimiting IsData := by
  intro a b v w hv hw r s heq
  obtain ⟨ha, rfl⟩ := hv
  obtain ⟨hb, rfl⟩ := hw
  rw [wordData_eq ha, wordData_eq hb, List.append_assoc, List.append_assoc] at heq
  obtain ⟨hlen, heq⟩ := selfDelimiting_word32 rfl rfl heq
  have hnat := congrArg UInt32.toNat hlen
  rw [UInt32.toNat_ofNat', UInt32.toNat_ofNat', Nat.mod_eq_of_lt ha, Nat.mod_eq_of_lt hb] at hnat
  exact List.append_inj heq hnat

def SftpBuffer.ofData (bytes : List UInt8) : SftpBuffer :=
  ⟨bytes.map some ++ [none], 0, bytes.length⟩

/-- What follows the length in `buf_get_data`. -/
theorem decodes_dataBytes (len : UInt32) :
    Decodes message (· = -1)
      (do
        let left ← Proc.read fun buf : SftpBuffer => (buf.size + 2 ^ 64 - buf.len) % 2 ^ 64
        if len.toNat > left then Proc.fail (-1)
        else
          let bytes ← bufGetMem len.toNat
          match (bufInit (len + 1).toNat).p.store 0 bytes with
          | .ok p => return ({ p, len := 0, size := len.toNat } : SftpBuffer)
          | .error fault => Proc.stop fault)
      fun data w => w.length = len.toNat ∧ data = SftpBuffer.ofData w := by
  intro buf hbuf
  obtain ⟨-, hlength⟩ := hbuf.unread_holds
  have hsize := hbuf.2.1
  have hleft : (buf.size + 2 ^ 64 - buf.len) % 2 ^ 64 = buf.unread.length := by
    rw [← hlength]
    omega
  rw [Proc.ends_read_bind, hleft]
  split_ifs with hlong
  · rw [Proc.ends_fail]
    refine ⟨hbuf, rfl, ?_⟩
    intro data w hw hstart
    have := hstart.length_le
    change _ ≤ buf.unread.length at this
    omega
  · apply (decodes_mem len.toNat_lt buf hbuf).bind
    · intro e buf' herr
      obtain ⟨hbuf', he, hnone⟩ := herr
      refine ⟨hbuf', he, ?_⟩
      intro data w hw
      exact hnone w w ⟨hw.1, rfl⟩
    · intro bytes buf' hok
      obtain ⟨hbuf', w, ⟨hbytes, rfl⟩, hrest⟩ := hok
      have hnat : (len + 1).toNat = len.toNat + 1 := by
        rw [UInt32.toNat_add]
        exact Nat.mod_eq_of_lt (by change len.toNat + 1 < 2 ^ 32; omega)
      have hstore : (bufInit (len + 1).toNat).p.store 0 w = .ok (w.map some ++ [none]) := by
        rw [Cells.store_ok (by simp [bufInit, hnat, hbytes])]
        simp [bufInit, hnat, hbytes]
      rw [hstore, Proc.ends_pure]
      exact ⟨hbuf', w, ⟨hbytes, by rw [SftpBuffer.ofData, hbytes]⟩, hrest⟩

theorem decodes_data :
    Decodes message (· = -1) bufGetData fun data w => ∃ bytes, data = SftpBuffer.ofData bytes ∧ IsData bytes w := by
  apply (decodes_uint32.bind selfDelimiting_word32 decodes_dataBytes).congr
  intro data w
  constructor
  · intro h
    obtain ⟨len, u, v, rfl, ⟨hv, rfl⟩, rfl⟩ := h
    have hlt := len.toNat_lt
    refine ⟨v, rfl, by omega, ?_⟩
    rw [wordData, hv]
    rfl
  · intro h
    obtain ⟨bytes, rfl, hlt, rfl⟩ := h
    refine ⟨UInt32.ofNat bytes.length, _, bytes, rfl, ⟨?_, rfl⟩, wordData_eq hlt⟩
    rw [UInt32.toNat_ofNat', Nat.mod_eq_of_lt hlt]

theorem selfDelimiting_ofData :
    SelfDelimiting fun data w => ∃ bytes, data = SftpBuffer.ofData bytes ∧ IsData bytes w := by
  intro a b v w hv hw r s heq
  obtain ⟨bytes, rfl, hv⟩ := hv
  obtain ⟨bytes', rfl, hw⟩ := hw
  obtain ⟨rfl, hrest⟩ := selfDelimiting_data hv hw heq
  exact ⟨rfl, hrest⟩

def stringCells (bytes : List UInt8) : Cells := bytes.map some ++ [some 0]

theorem selfDelimiting_string :
    SelfDelimiting fun str w => ∃ bytes, str = stringCells bytes ∧ IsData bytes w := by
  intro a b v w hv hw r s heq
  obtain ⟨bytes, rfl, hv⟩ := hv
  obtain ⟨bytes', rfl, hw⟩ := hw
  obtain ⟨rfl, hrest⟩ := selfDelimiting_data hv hw heq
  exact ⟨rfl, hrest⟩

theorem decodes_string :
    Decodes message (· = -1) bufGetString fun str w => ∃ bytes, str = stringCells bytes ∧ IsData bytes w := by
  intro buf hbuf
  apply (decodes_data buf hbuf).bind
  · intro e buf' herr
    obtain ⟨hbuf', he, hnone⟩ := herr
    refine ⟨hbuf', he, ?_⟩
    intro str w hw
    obtain ⟨bytes, -, hdata⟩ := hw
    exact hnone _ w ⟨bytes, rfl, hdata⟩
  · intro data buf' hok
    obtain ⟨hbuf', w, ⟨bytes, rfl, hdata⟩, hrest⟩ := hok
    have hstore : (SftpBuffer.ofData bytes).p.store (SftpBuffer.ofData bytes).size [0] =
        .ok (stringCells bytes) := by
      rw [Cells.store_ok (by simp [SftpBuffer.ofData])]
      simp [SftpBuffer.ofData, stringCells]
    rw [hstore, Proc.ends_pure]
    exact ⟨hbuf', w, ⟨bytes, rfl, hdata⟩, hrest⟩

theorem text_stringCells (bytes : List UInt8) :
    (stringCells bytes).text = .ok (bytes.takeWhile (· ≠ 0)) := by
  induction bytes with
  | nil => rfl
  | cons b bytes ih =>
    change Cells.text (some b :: stringCells bytes) = _
    rw [Cells.text, ih]
    by_cases hb : b = 0
    · simp [hb]
    · simp [hb]

end Data

end Defuse.Sshfs
