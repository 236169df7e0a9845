import Defuse.Spec.HdfsRead

/-! `usfs_wrap/hdfs/varint.c`, and of `hadooprpc.c` `PACK`, which puts a message behind its
length, and `hadoop_rpc_receive_proto`, which receives it. -/

namespace Defuse

open CSem

/-- `encode_unsigned_varint` into a buffer with room for `room` bytes: the bytes written, whose
number is returned. -/
def encodeUnsignedVarint : ℕ → UInt64 → Checked (List UInt8)
  | 0, _ => .error .outOfBounds
  | room + 1, value =>
    let nextByte := (value &&& 0x7F).toUInt8
    let value := value >>> 7
    if value ≠ 0 then do return (nextByte ||| 0x80) :: (← encodeUnsignedVarint room value)
    else return [nextByte]

theorem next_groups (value : UInt64) : (value >>> 7).toNat = value.toNat / 128 := by
  rw [UInt64.toNat_shiftRight, show (7 : UInt64).toNat % 64 = 7 from rfl, Nat.shiftRight_eq_div_pow]

/-- The loop of `encode_unsigned_varint` on the buffer itself. `encoded` is an `uint8_t`. -/
def encodeLoop (buffer : List UInt8) (encoded : UInt8) (value : UInt64) :
    Checked (UInt8 × List UInt8) :=
  let nextByte := (value &&& 0x7F).toUInt8
  if encoded.toNat < buffer.length then
    if value >>> 7 ≠ 0 then
      encodeLoop (buffer.set encoded.toNat (nextByte ||| 0x80)) (encoded + 1) (value >>> 7)
    else return (encoded + 1, buffer.set encoded.toNat nextByte)
  else .error .outOfBounds
termination_by value.toNat
decreasing_by
  rename_i hvalue
  rw [ne_eq, ← UInt64.toNat_inj, next_groups, show (0 : UInt64).toNat = 0 from rfl] at hvalue
  rw [next_groups]
  omega

/-- `encode_unsigned_varint` with the number it returns and the buffer it leaves. -/
def encodeUnsignedVarintInto (buffer : List UInt8) (value : UInt64) :
    Checked (UInt8 × List UInt8) :=
  encodeLoop buffer 0 value

/-- The loop of `decode_unsigned_varint`. A shift by the width of the type or more has no
meaning. -/
def decodeLoop : List UInt8 → ℕ → UInt64 → ℕ → Checked (UInt64 × ℕ)
  | [], _, _, _ => .error .outOfBounds
  | byte :: data, i, decodedValue, shiftAmount =>
    if shiftAmount ≥ 64 then .error .intOverflow
    else
      let decodedValue :=
        decodedValue ||| ((byte &&& 0x7F).toUInt64 <<< UInt64.ofNat shiftAmount)
      if byte &&& 0x80 ≠ 0 then decodeLoop data (i + 1) decodedValue (shiftAmount + 7)
      else return (decodedValue, i + 1)

def decodeUnsignedVarint (data : List UInt8) : Checked (UInt64 × ℕ) := decodeLoop data 0 0 0

/-- `PACK` of a message that protobuf packs to `msg`: `len` and the frame in `buf`. The size of the
message is cut to the `uint32_t` that every caller passes for `len`, and `buf` is allocated for
the cut size. What `lenbuf` holds before is not known. -/
def pack (lenbuf : Fin 10 → UInt8) (msg : List UInt8) : Checked (UInt32 × List UInt8) := do
  let len := UInt32.ofNat msg.length
  let (lenlen, lenbuf) ← encodeUnsignedVarintInto (List.ofFn lenbuf) len.toUInt64
  let allocated := lenlen.toUInt32 + len
  if allocated.toNat < lenlen.toNat + msg.length then .error .outOfBounds
  else return (len + lenlen.toUInt32, lenbuf.take lenlen.toNat ++ msg)

/-- The most bytes that Linux moves in one call. -/
def MAX_RW_COUNT : ℕ := 0x7ffff000

/-- What a connection delivers, and whether the other side closes it behind these bytes. -/
structure Incoming where
  bytes : List UInt8
  closed : Bool
  deriving DecidableEq, Repr

/-- `recvfrom` of `n` bytes with `MSG_WAITALL`: what is received, and what the connection delivers
next. It waits for all its bytes, also for one when `n` is 0, and does not return (`none`) as long
as they do not come. It gets fewer only when the connection ends. -/
def Incoming.recvfrom (incoming : Incoming) (n : ℕ) : Option (List UInt8 × Incoming) :=
  let n := min n MAX_RW_COUNT
  if incoming.bytes.length < max n 1 ∧ incoming.closed = false then none
  else some (incoming.bytes.take n, ⟨incoming.bytes.drop n, incoming.closed⟩)

/-- What a call leaves: its result, the message that was unpacked, and what the connection
delivers next. -/
structure Received where
  res : ℤ
  message : Option (List UInt8)
  incoming : Incoming
  deriving DecidableEq, Repr

/-- `hadoop_rpc_receive_proto`; `fails` tells which of the two receives fails. The result is `none`
when the call waits in a receive that does not return. -/
def receiveProto (fails : Fin 2 → Option Failure) (incoming : Incoming) :
    Checked (Option Received) :=
  match fails 0 with
  | some e => return some ⟨e, none, incoming⟩
  | none =>
    match incoming.recvfrom 5 with
    | none => return none
    | some (lenVarint, incoming) => do
      let (len, lenVarintlen) ← decodeUnsignedVarint lenVarint
      let len := len.toNat
      let bytesinwrongbuf := 5 - lenVarintlen
      -- the bytes behind the length are copied to `buf`, which has room for `len` bytes
      if bytesinwrongbuf > len then .error .outOfBounds
      else if lenVarint.length < 5 then .error .uninitialised
      else
        match fails 1 with
        | some e => return some ⟨e, none, incoming⟩
        | none =>
          match incoming.recvfrom (len - bytesinwrongbuf) with
          | none => return none
          | some (received, incoming) =>
            let res := asInt received.length
            if res < 0 then return some ⟨res, none, incoming⟩
            -- the number of bytes is not looked at, and `unpack` reads all of `buf`
            else if received.length < len - bytesinwrongbuf then .error .uninitialised
            else return some ⟨0, some (lenVarint.drop lenVarintlen ++ received), incoming⟩

end Defuse
